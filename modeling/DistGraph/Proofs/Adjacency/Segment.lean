import DistGraph.Adjacency.Build
import DistGraph.Proofs.Adjacency.RowTable
import DistGraph.Error
import DistGraph.Proofs.Partition
import DistGraph.Proofs.Runs

/-! Segments hold the records of their vertices, row by row. -/

namespace DistGraph

variable {size : Nat}

/-- The major endpoint of a record as a number. -/
def EdgeRecord.majorNumber (transposed : Bool) (record : EdgeRecord) : Nat :=
  (record.major transposed).toNat

namespace Segment

variable {transposed : Bool} {records : List EdgeRecord} {start : VertexId}

/-- Records have the same major endpoint when these are the same number. -/
theorem same_major_iff (transposed : Bool) (left right : EdgeRecord) :
    (left.major transposed == right.major transposed) = true ↔
      left.majorNumber transposed = right.majorNumber transposed := by
  simp [EdgeRecord.majorNumber, UInt64.toNat_inj]

/-- Cells stand for the records in their order, each in the row of its major endpoint. -/
theorem map_cells (start : VertexId)
    (sorted : records.Pairwise fun left right =>
      left.majorNumber transposed ≤ right.majorNumber transposed) :
    (cells start transposed records).map (fun cell => (cell.row, cell.value)) =
      records.map fun record =>
        ((record.major transposed - start).toNat, HalfEdge.ofRecord transposed record) := by
  obtain ⟨whole, -⟩ := runs_sorted (same_major_iff transposed) sorted
  unfold cells
  conv_rhs => rw [← flatMap_runs (fun left right : EdgeRecord =>
    left.major transposed == right.major transposed) records]
  rw [List.map_flatMap, List.map_flatMap]
  refine List.flatMap_congr fun run member => ?_
  apply List.ext_getElem
  · simp
  · intro index inside _
    simp only [List.length_map, List.length_zipIdx] at inside
    -- All records of a run have the major endpoint of its first one.
    have held : (run.1 :: run.2)[index] ∈ records.filter fun record =>
        record.majorNumber transposed = run.1.majorNumber transposed :=
      whole run member ▸ List.getElem_mem inside
    have same := (same_major_iff transposed _ _).mpr
      (of_decide_eq_true (List.mem_filter.mp held).2)
    simp only [beq_iff_eq] at same
    simp only [List.getElem_map, List.getElem_zipIdx]
    rw [same]

/-- There are as many cells as records. -/
theorem length_cells (start : VertexId)
    (sorted : records.Pairwise fun left right =>
      left.majorNumber transposed ≤ right.majorNumber transposed) :
    (cells start transposed records).length = records.length := by
  simpa using congrArg List.length (map_cells start sorted)

/-- Cells of sorted records are in order. -/
theorem cells_sorted
    (sorted : records.Pairwise fun left right =>
      left.majorNumber transposed ≤ right.majorNumber transposed)
    (above : ∀ record ∈ records, start.toNat ≤ record.majorNumber transposed) :
    (cells start transposed records).Pairwise
      fun left right => RowTable.precedes left right = true := by
  -- Cells are ordered within the run of a row and from run to run.
  obtain ⟨-, rising⟩ := runs_sorted (same_major_iff transposed) sorted
  unfold cells
  rw [List.pairwise_flatMap]
  constructor
  · -- The slots of a row ascend.
    intro run _
    refine List.pairwise_map.mpr ?_
    rw [List.pairwise_iff_getElem]
    intro i j _ _ before
    rw [RowTable.precedes_iff]
    simp only [List.getElem_zipIdx]
    exact .inr ⟨trivial, by omega⟩
  · -- So do the rows from run to run.
    refine List.Pairwise.imp_of_mem ?_ rising
    intro left right leftMember rightMember less leftCell leftHeld rightCell rightHeld
    obtain ⟨⟨leftRecord, leftSlot⟩, -, rfl⟩ := List.mem_map.mp leftHeld
    obtain ⟨⟨rightRecord, rightSlot⟩, -, rfl⟩ := List.mem_map.mp rightHeld
    have leftAbove := above left.1 (fst_mem_of_mem_runs leftMember)
    have rightAbove := above right.1 (fst_mem_of_mem_runs rightMember)
    unfold EdgeRecord.majorNumber at less leftAbove rightAbove
    rw [RowTable.precedes_iff]
    left
    dsimp only
    rw [UInt64.toNat_sub_of_le _ _ (UInt64.le_iff_toNat_le.mpr leftAbove),
      UInt64.toNat_sub_of_le _ _ (UInt64.le_iff_toNat_le.mpr rightAbove)]
    omega

/-- What the cells hold in a row is what the records have for its vertex. -/
theorem filter_cells (start : VertexId)
    (sorted : records.Pairwise fun left right =>
      left.majorNumber transposed ≤ right.majorNumber transposed) (row : Nat) :
    ((cells start transposed records).filter fun cell => cell.row = row).map Cell.value =
      (records.filter fun record => (record.major transposed - start).toNat = row).map
        (HalfEdge.ofRecord transposed) := by
  -- Row and entry of the cells are a map of the sorted records.
  have same := congrArg (fun pairs => (pairs.filter fun pair : Nat × HalfEdge =>
    pair.1 = row).map Prod.snd) (map_cells start sorted)
  simp only [List.filter_map, List.map_map] at same
  exact same

/-- A row is as far from the first one as the major endpoint of its records is from the first vertex. -/
theorem filter_cells_above (start : VertexId)
    (sorted : records.Pairwise fun left right =>
      left.majorNumber transposed ≤ right.majorNumber transposed)
    (above : ∀ record ∈ records, start.toNat ≤ record.majorNumber transposed) (row : Nat) :
    ((cells start transposed records).filter fun cell => cell.row = row).map Cell.value =
      (records.filter fun record => record.majorNumber transposed = start.toNat + row).map
        (HalfEdge.ofRecord transposed) := by
  rw [filter_cells start sorted]
  -- No record lies before the first vertex, so that the distance does not wrap.
  refine congrArg _ (List.filter_congr fun record held => ?_)
  have recordAbove := above record held
  unfold EdgeRecord.majorNumber at recordAbove ⊢
  rw [UInt64.toNat_sub_of_le _ _ (UInt64.le_iff_toNat_le.mpr recordAbove)]
  exact decide_eq_decide.mpr (by omega)

/-- A segment with the records of its vertices in their rows. -/
structure Stores (segment : Segment) (transposed : Bool) (vertices : Span)
    (records : List EdgeRecord) : Prop where
  /-- The segment starts with its first vertex. -/
  starts : segment.firstVertex = vertices.start
  /-- The segment has a row for every vertex. -/
  counts : segment.vertexCount = vertices.length
  /-- A row holds the records of its vertex in their order. -/
  rows : ∀ vertex, vertices.contains vertex = true →
    segment.row (vertex - vertices.start).toNat =
      (records.filter fun record => record.major transposed = vertex).map
        (HalfEdge.ofRecord transposed)
  /-- No record is counted twice or left out. -/
  entries : segment.edgeCount = records.length
  /-- Rows hold nothing else, whether or not they are rows of vertices. -/
  placed : ∀ index, segment.table.row index =
    (records.filter fun record => (record.major transposed - vertices.start).toNat = index).map
      (HalfEdge.ofRecord transposed)

/-- Sorted records of given vertices are stored if there is a buffer for them. -/
theorem exists_build (member : Member size) {vertices : Span}
    (sorted : records.Pairwise fun left right =>
      left.majorNumber transposed ≤ right.majorNumber transposed)
    (inside : ∀ record ∈ records, vertices.contains (record.major transposed) = true) :
    ∃ segment : Segment, segment.Stores transposed vertices records ∧
      build member transposed vertices records =
        (member.makeRoom HalfEdge.cellBytes records.length).map fun _ => segment := by
  -- No record lies before the first vertex, so that its row is its distance from there.
  have above : ∀ record ∈ records, vertices.start.toNat ≤ record.majorNumber transposed :=
    fun record held => (Span.contains_iff.mp (inside record held)).1
  obtain ⟨table, made, entries, rows⟩ := RowTable.exists_ofCells (cells_sorted sorted above)
  -- Padding adds empty rows, so every row is what the cells put there.
  have placed : ∀ index, (table.padTo vertices.length).row index = (records.filter fun record =>
      (record.major transposed - vertices.start).toNat = index).map (HalfEdge.ofRecord transposed) := by
    intro index
    rw [RowTable.row_padTo, rows, filter_cells vertices.start sorted]
  refine ⟨⟨vertices.start, vertices.length, table.padTo vertices.length,
    records.any fun record => record.weight?.isSome⟩, ⟨rfl, rfl, ?_, ?_, placed⟩, ?_⟩
  · -- A vertex has the row that is as far from the first one as the vertex is from the start.
    intro vertex owned
    obtain ⟨lower, upper⟩ := Span.contains_iff.mp owned
    have place : (vertex - vertices.start).toNat = vertex.toNat - vertices.start.toNat :=
      UInt64.toNat_sub_of_le _ _ (UInt64.le_iff_toNat_le.mpr lower)
    unfold row Span.length
    dsimp only
    rw [if_pos (by rw [place]; omega)]
    refine (placed _).trans (congrArg _ (List.filter_congr fun record held => ?_))
    have recordAbove := above record held
    unfold EdgeRecord.majorNumber at recordAbove
    rw [Bool.eq_iff_iff]
    simp only [decide_eq_true_eq, ← UInt64.toNat_inj, place]
    rw [UInt64.toNat_sub_of_le _ _ (UInt64.le_iff_toNat_le.mpr recordAbove)]
    omega
  · unfold edgeCount
    rw [RowTable.entryCount_padTo, entries, length_cells vertices.start sorted]
  · unfold build
    rw [made]
    cases member.makeRoom HalfEdge.cellBytes records.length <;> rfl

end Segment

end DistGraph
