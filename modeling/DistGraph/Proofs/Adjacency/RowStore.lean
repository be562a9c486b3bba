import DistGraph.Proofs.Adjacency.View
import DistGraph.Proofs.Routing.Exchange

/-! Segments over any store of rows that keeps to what segments rely on. -/

namespace DistGraph

variable {size : Nat} {α : Type}

/-- A structure that can keep the rows of a segment. -/
structure RowStore (α : Type) where
  /-- Rows of entries. -/
  Table : Type
  /-- The table of cells, unless it is refused for one of them. -/
  ofCells : List (Cell α) → Except (Cell α) Table
  /-- The number of rows. -/
  rowCount : Table → Nat
  /-- The number of entries in all rows. -/
  entryCount : Table → Nat
  /-- The entries of a row, if the table can be read there. -/
  row? : Table → Nat → Option (List α)
  /-- The table with one more row. -/
  addRow : Table → Table
  /-- Rows are added one by one. -/
  rowCount_addRow : ∀ table, rowCount (addRow table) = rowCount table + 1

namespace RowStore

/-- The table with rows added as long as it has too few. -/
def fill (store : RowStore α) (count : Nat) (table : store.Table) : store.Table :=
  -- A table that has as many rows already stays as it is.
  if store.rowCount table < count then store.fill count (store.addRow table) else table
termination_by count - store.rowCount table
decreasing_by
  rw [store.rowCount_addRow]
  omega

/-- Whether a store accepts sorted cells, keeps them by row, and adds rows without entries. -/
structure Lawful (store : RowStore α) : Prop where
  /-- Cells are accepted if rows never fall and slots rise within a row, and otherwise not. -/
  accepts : ∀ cells, (∃ table, store.ofCells cells = .ok table) ↔
    cells.Pairwise fun left right =>
      left.row < right.row ∨ left.row = right.row ∧ left.slot < right.slot
  /-- There is one row more than the greatest number among the rows and slots of the cells. -/
  height : ∀ cells table, store.ofCells cells = .ok table →
    store.rowCount table = RowTable.height cells
  /-- All cells are counted. -/
  entries : ∀ cells table, store.ofCells cells = .ok table → store.entryCount table = cells.length
  /-- A row has the entries of its cells in their order. -/
  rows : ∀ cells table, store.ofCells cells = .ok table → ∀ index < store.rowCount table,
    store.row? table index = some ((cells.filter fun cell => cell.row = index).map Cell.value)
  /-- A row that is added has no entries. -/
  entryCount_addRow : ∀ table, store.entryCount (store.addRow table) = store.entryCount table
  /-- The rows before it stay as they are. -/
  row?_addRow : ∀ table, ∀ index < store.rowCount table,
    store.row? (store.addRow table) index = store.row? table index
  /-- It can be read itself. -/
  row?_added : ∀ table, store.row? (store.addRow table) (store.rowCount table) = some []

variable {store : RowStore α} {count : Nat} {table : store.Table}

namespace Lawful

variable (lawful : store.Lawful)

include lawful

/-- Filling adds no entries. -/
theorem entryCount_fill : store.entryCount (store.fill count table) = store.entryCount table := by
  fun_induction fill store count table with
  | case1 table few ih => rw [ih, lawful.entryCount_addRow]
  | case2 table enough => rfl

/-- Filling leaves the rows of a table as they are. -/
theorem row?_fill {index : Nat} (inside : index < store.rowCount table) :
    store.row? (store.fill count table) index = store.row? table index := by
  fun_induction fill store count table with
  | case1 table few ih =>
    -- The row that is added now comes after all others.
    have inside_more : index < store.rowCount (store.addRow table) := by
      rw [store.rowCount_addRow]
      omega
    rw [ih inside_more, lawful.row?_addRow table index inside]
  | case2 table enough => rfl

/-- The rows that filling adds are empty. -/
theorem row?_filled {index : Nat} (outside : store.rowCount table ≤ index) (inside : index < count) :
    store.row? (store.fill count table) index = some [] := by
  fun_induction fill store count table with
  | case1 table few ih =>
    -- Either the row is the one that is added now, or a later one.
    have more := store.rowCount_addRow table
    rcases Nat.eq_or_lt_of_le outside with next | later
    · rw [lawful.row?_fill (by omega), ← next, lawful.row?_added]
    · exact ih (by omega)
  | case2 table enough => omega

/-- A table that is filled has the entries of its cells in their rows, up to the number of rows called for. -/
theorem row?_fill_ofCells {cells : List (Cell α)} (made : store.ofCells cells = .ok table) {index : Nat}
    (inside : index < count) : store.row? (store.fill count table) index =
      some ((cells.filter fun cell => cell.row = index).map Cell.value) := by
  rcases Nat.lt_or_ge index (store.rowCount table) with low | high
  · -- The table had the row before it was filled.
    rw [lawful.row?_fill low, lawful.rows cells table made index low]
  · -- No cell has a row that far out.
    have none_there : cells.filter (fun cell => cell.row = index) = [] := by
      rw [List.filter_eq_nil_iff]
      intro cell member same
      have below := RowTable.row_lt_height member
      rw [lawful.height cells table made] at high
      have := of_decide_eq_true same
      omega
    rw [lawful.row?_filled high inside, none_there]
    rfl

end Lawful

end RowStore

/-- Tables of rows as a store. -/
def RowTable.store : RowStore α where
  Table := RowTable α
  ofCells := ofCells
  rowCount := rowCount
  entryCount := entryCount
  row? table index := table.rows[index]?
  addRow table := ⟨table.rows.push []⟩
  rowCount_addRow _ := Array.size_push _

/-- Tables of rows keep to what segments rely on. -/
theorem RowTable.store_lawful : (store : RowStore α).Lawful where
  -- Making a table fails on unsorted cells only, and a made table has the height, the rows and the
  -- entries of its cells.
  accepts cells := by
    constructor
    · intro ⟨table, made⟩
      exact (of_ofCells made).1.imp precedes_iff.mp
    · intro sorted
      obtain ⟨table, made, -⟩ := exists_ofCells (sorted.imp precedes_iff.mpr)
      exact ⟨table, made⟩
  height cells table made := (of_ofCells made).2.1
  entries cells table made := (of_ofCells made).2.2.1
  rows cells table made index low := by
    rw [← (of_ofCells made).2.2.2 index]
    show table.rows[index]? = some (table.rows[index]?.getD [])
    rw [Array.getElem?_eq_getElem low, Option.getD_some]
  entryCount_addRow table := by simp [store, entryCount]
  row?_addRow table index low := by
    show (table.rows.push [])[index]? = table.rows[index]?
    rw [Array.getElem?_push_lt low, Array.getElem?_eq_getElem low]
  row?_added table := Array.getElem?_push_size

/-- Filling a table of rows is padding it. -/
theorem RowTable.store_fill (count : Nat) (table : RowTable α) :
    store.fill count table = table.padTo count := by
  fun_induction RowStore.fill store count table with
  | case1 table few ih =>
    -- One of the rows to add is pushed, and the others follow.
    have more : count - table.rows.size = count - (table.rows.push []).size + 1 := by
      have few : table.rows.size < count := few
      rw [Array.size_push]
      omega
    rw [ih]
    unfold padTo
    rw [more, Array.replicate_succ', ← Array.append_assoc, ← Array.push_eq_append]
    rfl
  | case2 table enough =>
    have none_left : count - table.rows.size = 0 := Nat.sub_eq_zero_of_le (Nat.le_of_not_lt enough)
    unfold padTo
    rw [none_left, Array.replicate_zero, Array.append_empty]
    rfl

/-- The adjacency of consecutive vertices over a store of rows. -/
structure SegmentIn (store : RowStore HalfEdge) where
  /-- The first vertex. -/
  firstVertex : VertexId
  /-- The number of vertices. -/
  vertexCount : Nat
  /-- One row of stored edges per vertex. -/
  table : store.Table
  /-- Whether any edge has a weight. -/
  hasWeights : Bool

namespace SegmentIn

variable {store : RowStore HalfEdge} {transposed : Bool}

/-- The number of edges of a segment. -/
def edgeCount (segment : SegmentIn store) : Nat := store.entryCount segment.table

/-- The stored edges of a vertex, counted from the first vertex of the segment, if its row can be read. -/
def row? (segment : SegmentIn store) (index : Nat) : Option (List HalfEdge) :=
  -- The table may have more rows than the segment has vertices.
  if index < segment.vertexCount then store.row? segment.table index else some []

/-- The edges of a segment, row by row. -/
def edges (segment : SegmentIn store) (transposed : Bool) : List Edge :=
  -- The major endpoint of an edge follows from its row.
  (List.range segment.vertexCount).flatMap fun index =>
    ((segment.row? index).getD []).map
      (HalfEdge.toEdge transposed (segment.firstVertex + UInt64.ofNat index))

/-- The segment of given vertices over the table of their records. -/
def ofTable (vertices : Span) (records : List EdgeRecord) (table : store.Table) : SegmentIn store where
  -- Vertices after the last one with an edge get rows of their own.
  firstVertex := vertices.start
  vertexCount := vertices.length
  table := store.fill vertices.length table
  hasWeights := records.any fun record => record.weight?.isSome

/-- The segment of given vertices from their sorted records, over a store of rows. -/
def build (store : RowStore HalfEdge) (self : Member size) (transposed : Bool) (vertices : Span)
    (records : List EdgeRecord) : Except Failure (SegmentIn store) := do
  -- Each record is a cell in the row of its major endpoint.
  self.makeRoom HalfEdge.cellBytes records.length
  match store.ofCells (Segment.cells vertices.start transposed records) with
  | .error cell => .error (.rejected (.unsortedRows vertices cell.row cell.slot))
  | .ok table => .ok (ofTable vertices records table)

/-- A segment as one over tables of rows. -/
def ofSegment (segment : Segment) : SegmentIn RowTable.store :=
  ⟨segment.firstVertex, segment.vertexCount, segment.table, segment.hasWeights⟩

/-- Segments are built over tables of rows. -/
theorem build_rowTable (self : Member size) (transposed : Bool) (vertices : Span)
    (records : List EdgeRecord) : build RowTable.store self transposed vertices records =
      (Segment.build self transposed vertices records).map ofSegment := by
  unfold build Segment.build
  -- Both stop for want of a buffer, then for unsorted cells, and fill the same table otherwise.
  cases self.makeRoom HalfEdge.cellBytes records.length with
  | error error => rfl
  | ok granted =>
    cases made : RowTable.ofCells (Segment.cells vertices.start transposed records) with
    | error cell =>
      have made_in : RowTable.store.ofCells (Segment.cells vertices.start transposed records) =
          .error cell := made
      rw [made_in]
      rfl
    | ok table =>
      have made_in : RowTable.store.ofCells (Segment.cells vertices.start transposed records) =
          .ok table := made
      rw [made_in]
      show Except.ok (ofTable vertices records table : SegmentIn RowTable.store) = _
      unfold ofTable
      rw [RowTable.store_fill]
      rfl

/-- Whether a segment has sorted records in the rows of their major endpoints, and nothing else. -/
structure Exact (segment : SegmentIn store) (transposed : Bool) (vertices : Span)
    (records : List EdgeRecord) : Prop where
  /-- The segment starts with the first vertex. -/
  starts : segment.firstVertex = vertices.start
  /-- Every vertex is counted. -/
  counts : segment.vertexCount = vertices.length
  /-- The row of a vertex can be read, and has its records in their order. -/
  rows : ∀ index < vertices.length, segment.row? index =
    some ((records.filter fun record =>
      record.majorNumber transposed = vertices.start.toNat + index).map (HalfEdge.ofRecord transposed))
  /-- There is nothing in rows after those of the vertices. -/
  beyond : ∀ index, vertices.length ≤ index → segment.row? index = some []
  /-- Every record is counted. -/
  entries : segment.edgeCount = records.length
  /-- Weights are noticed. -/
  weights : segment.hasWeights = true ↔ ∃ record ∈ records, record.weight?.isSome = true
  /-- The rows lead back to the edges that the records stand for. -/
  edges : segment.edges transposed = records.map EdgeRecord.toEdge

variable {vertices : Span} {records : List EdgeRecord}

/-- Rows with the records of their vertices lead back to the edges of these. -/
theorem edges_eq_of_rows {segment : SegmentIn store} (starts : segment.firstVertex = vertices.start)
    (counts : segment.vertexCount = vertices.length)
    (rows : ∀ index < vertices.length, segment.row? index =
      some ((records.filter fun record =>
        record.majorNumber transposed = vertices.start.toNat + index).map (HalfEdge.ofRecord transposed)))
    (sorted : records.Pairwise fun left right =>
      left.majorNumber transposed ≤ right.majorNumber transposed)
    (inside : ∀ record ∈ records, vertices.contains (record.major transposed) = true) :
    segment.edges transposed = records.map EdgeRecord.toEdge := by
  -- Gathered vertex by vertex, the records come in their order.
  have gathered := Span.flatMap_filter_major sorted inside
  unfold Span.toList at gathered
  rw [List.flatMap_map] at gathered
  conv_rhs => rw [← gathered, List.map_flatMap]
  unfold SegmentIn.edges
  rw [counts, starts]
  refine List.flatMap_congr fun index member => ?_
  have low := List.mem_range.mp member
  rw [rows index low, Option.getD_some, List.map_map]
  have own : (records.filter fun record => record.major transposed = vertices.start + UInt64.ofNat index) =
      records.filter fun record => record.majorNumber transposed = vertices.start.toNat + index := by
    refine List.filter_congr fun record _ => decide_eq_decide.mpr ?_
    rw [← UInt64.toNat_inj, vertices.toNat_start_add low]
    rfl
  rw [own]
  -- The vertex of a row is the major endpoint of its records.
  refine List.map_congr_left fun record held => ?_
  rw [← own] at held
  have major := of_decide_eq_true (List.mem_filter.mp held).2
  rw [Function.comp_apply, ← major, HalfEdge.toEdge_ofRecord]

/-- The segment over the table of the cells of sorted records has each in its row. -/
theorem exact_ofTable (lawful : store.Lawful) {table : store.Table}
    (made : store.ofCells (Segment.cells vertices.start transposed records) = .ok table)
    (sorted : records.Pairwise fun left right =>
      left.majorNumber transposed ≤ right.majorNumber transposed)
    (inside : ∀ record ∈ records, vertices.contains (record.major transposed) = true) :
    (ofTable vertices records table).Exact transposed vertices records := by
  have above : ∀ record ∈ records, vertices.start.toNat ≤ record.majorNumber transposed :=
    fun record held => (Span.contains_iff.mp (inside record held)).1
  -- Filling up adds empty rows only, so that a row has what the cells hold for it.
  have rows : ∀ index < vertices.length, (ofTable vertices records table).row? index =
      some ((records.filter fun record => record.majorNumber transposed = vertices.start.toNat + index).map
        (HalfEdge.ofRecord transposed)) := by
    intro index low
    unfold row? ofTable
    rw [if_pos low, lawful.row?_fill_ofCells made low, Segment.filter_cells_above _ sorted above]
  refine {
    starts := rfl, counts := rfl, rows, beyond := ?_, entries := ?_, weights := List.any_eq_true
    edges := edges_eq_of_rows rfl rfl rows sorted inside }
  · exact fun index high => if_neg (Nat.not_lt.mpr high)
  · unfold edgeCount ofTable
    rw [lawful.entryCount_fill, lawful.entries _ table made, Segment.length_cells _ sorted]

/-- Whatever keeps the rows, sorted records of given vertices are never refused as unsorted, and get a segment
that has every one of them in its place unless there is no buffer for them. -/
theorem build_exact (store : RowStore HalfEdge) (lawful : store.Lawful) (member : Member size)
    (sorted : records.Pairwise fun left right =>
      left.majorNumber transposed ≤ right.majorNumber transposed)
    (inside : ∀ record ∈ records, vertices.contains (record.major transposed) = true) :
    ∃ segment : SegmentIn store, segment.Exact transposed vertices records ∧
      build store member transposed vertices records =
        (member.makeRoom HalfEdge.cellBytes records.length).map (fun _ => segment) ∧
      (member.memory = none → records.length * HalfEdge.cellBytes ≤ Memory.largestBuffer →
        build store member transposed vertices records = .ok segment) := by
  have above : ∀ record ∈ records, vertices.start.toNat ≤ record.majorNumber transposed :=
    fun record held => (Span.contains_iff.mp (inside record held)).1
  -- Slots rise within a row, so the store accepts the cells even if edges are parallel.
  obtain ⟨table, made⟩ := (lawful.accepts _).mpr
    ((Segment.cells_sorted sorted above).imp RowTable.precedes_iff.mp)
  have built : build store member transposed vertices records =
      (member.makeRoom HalfEdge.cellBytes records.length).map fun _ => ofTable vertices records table := by
    unfold build
    rw [made]
    cases member.makeRoom HalfEdge.cellBytes records.length <;> rfl
  refine ⟨_, exact_ofTable lawful made sorted inside, built, fun unlimited fits => ?_⟩
  rw [built, Member.makeRoom_of_unlimited unlimited fits]
  rfl

/-- A vertex with more edges than the segment has vertices, two of which are parallel, stands between
vertices without any. -/
theorem build_exact_sample :
    let member : Member 1 := { rank := 0, memory := none }
    let records := EdgeRecord.ofEdges (0 : Fin 1) [⟨3, 0, none, none, none⟩, ⟨3, 7, some .zero, none, none⟩,
      ⟨3, 7, none, some 1, none⟩, ⟨3, 7, none, none, some 2⟩]
    ∃ segment : Segment, Segment.build member false ⟨2, 5⟩ records = .ok segment ∧
      (ofSegment segment).Exact false ⟨2, 5⟩ records := by
  intro member records
  obtain ⟨segment, exact_there, -, built⟩ := build_exact RowTable.store RowTable.store_lawful member
    (by decide : records.Pairwise fun left right => left.majorNumber false ≤ right.majorNumber false)
    (by decide : ∀ record ∈ records, (⟨2, 5⟩ : Span).contains (record.major false) = true)
  have success := built rfl (by decide)
  rw [build_rowTable] at success
  -- The segment over tables of rows is the view's own segment in another type.
  cases made : Segment.build member false ⟨2, 5⟩ records with
  | error error =>
    rw [made] at success
    cases success
  | ok own =>
    rw [made] at success
    cases success
    exact ⟨own, rfl, exact_there⟩

end SegmentIn

end DistGraph
