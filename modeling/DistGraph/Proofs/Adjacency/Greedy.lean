import DistGraph.Proofs.Adjacency.View
import DistGraph.Proofs.Routing.Exchange

/-! Segments tile the run of their rank, and each is cut as late as the budget allows. -/

namespace DistGraph.Segment

variable {size : Nat} {transposed : Bool}

/-- Whether pieces of a run of vertices are cut off as late as a budget allows. -/
structure Late (most : Nat) (degree : VertexId → Nat) (pieces : List (Span × List EdgeRecord)) : Prop where
  /-- Every piece has a vertex. -/
  occupied : ∀ piece ∈ pieces, piece.1.start < piece.1.stop
  /-- Only a vertex by itself may exceed the budget. -/
  bounded : ∀ piece ∈ pieces, piece.2.length ≤ most ∨ piece.1.length = 1
  /-- The vertex after a piece did not fit into it. -/
  late : pieces.IsChain fun left right => most < left.2.length + degree right.1.start

section Late

variable {most : Nat} {degree : VertexId → Nat} {first : VertexId} {held : List EdgeRecord}

/-- A piece within the budget may be long, and one vertex may have any number of records. -/
theorem length_le_or_single {stop : VertexId} (within : held.length ≤ most ∨ stop.toNat = first.toNat + 1) :
    held.length ≤ most ∨ (⟨first, stop⟩ : Span).length = 1 := by
  -- Both sides bound the same piece, whose span holds a single id in the second case.
  refine within.imp_right fun single => ?_
  unfold Span.length
  dsimp only
  omega

/-- A piece that is not followed by another one needs only to be within the budget. -/
theorem Late.last {stop : VertexId} (occupied : first < stop)
    (within : held.length ≤ most ∨ stop.toNat = first.toNat + 1) :
    Late most degree [(⟨first, stop⟩, held)] :=
  ⟨List.forall_mem_singleton.mpr occupied, List.forall_mem_singleton.mpr (length_le_or_single within),
    .singleton _⟩

/-- A piece may be cut off before a vertex that does not fit into it. -/
theorem Late.cons {vertex : VertexId} {pieces : List (Span × List EdgeRecord)} (occupied : first < vertex)
    (within : held.length ≤ most ∨ vertex.toNat = first.toNat + 1)
    (full : most < held.length + degree vertex)
    (start : (pieces.head?.map fun piece => piece.1.start) = some vertex)
    (later : Late most degree pieces) : Late most degree ((⟨first, vertex⟩, held) :: pieces) := by
  refine ⟨List.forall_mem_cons.mpr ⟨occupied, later.occupied⟩,
    List.forall_mem_cons.mpr ⟨length_le_or_single within, later.bounded⟩,
    List.isChain_cons.mpr ⟨fun after isHead => ?_, later.late⟩⟩
  -- The piece after it starts with the vertex that it had no room for.
  rw [Option.mem_def.mp isHead] at start
  have next : after.1.start = vertex := Option.some.inj start
  rw [next]
  exact full

end Late

/-- Cutting starts with the piece that is open. -/
theorem cut_head_start (budget : Nat) (transposed : Bool) (stop first : VertexId) (held : List EdgeRecord)
    (vertices : List VertexId) (records : List EdgeRecord) :
    ((cut budget transposed stop first held vertices records).head?.map fun piece => piece.1.start) =
      some first := by
  -- By induction on the vertices: the open piece keeps its start until it is cut off.
  induction vertices generalizing held records with
  | nil => rfl
  | cons vertex vertices ih =>
    simp only [cut]
    split
    · rfl
    · exact ih _ _

section Parted

variable {vertex : VertexId} {vertices : List VertexId} {own rest : List EdgeRecord}
  (parted : Parted transposed vertex vertices own rest) (below : ∀ other ∈ vertices, vertex < other)

include parted below

/-- The records that are taken off for a vertex are all that it has. -/
theorem Parted.count_own :
    ((own ++ rest).countP fun record => record.major transposed = vertex) = own.length := by
  -- Later records belong to later vertices, and no vertex is later than itself.
  have none_later : (rest.countP fun record => record.major transposed = vertex) = 0 := by
    rw [List.countP_eq_zero]
    intro record member same
    have later := below _ (parted.listed record member)
    rw [of_decide_eq_true same] at later
    exact UInt64.lt_irrefl _ later
  have all_own : (own.countP fun record => record.major transposed = vertex) = own.length :=
    List.countP_eq_length.mpr fun record member => decide_eq_true (parted.own record member)
  rw [List.countP_append, none_later, all_own, Nat.add_zero]

/-- Later vertices keep all of their records when those of a vertex are taken off. -/
theorem Parted.count_later {other : VertexId} (member : other ∈ vertices) :
    ((own ++ rest).countP fun record => record.major transposed = other) =
      rest.countP fun record => record.major transposed = other := by
  -- The records taken off are those of an earlier vertex.
  have none_own : (own.countP fun record => record.major transposed = other) = 0 := by
    rw [List.countP_eq_zero]
    intro record held same
    have later := below other member
    rw [← of_decide_eq_true same, parted.own record held] at later
    exact UInt64.lt_irrefl _ later
  rw [List.countP_append, none_own, Nat.zero_add]

end Parted

/-- If the piece that is open is within the budget or has one vertex so far, it is cut off late, and so are
the pieces after it. -/
theorem cut_late (most : Nat) {degree : VertexId → Nat} {stop first : VertexId} {next count : Nat}
    {held records : List EdgeRecord} {vertices : List VertexId} (occupied : first < stop)
    (started : first.toNat ≤ next) (left : next + count = stop.toNat)
    (listed : vertices.map UInt64.toNat = List.range' next count)
    (within : held.length ≤ most ∨ next = first.toNat + 1)
    (sorted : records.Pairwise fun left right =>
      left.majorNumber transposed ≤ right.majorNumber transposed)
    (among : ∀ record ∈ records, record.major transposed ∈ vertices)
    (known : ∀ vertex ∈ vertices,
      (records.countP fun record => record.major transposed = vertex) = degree vertex) :
    Late most degree (cut most transposed stop first held vertices records) := by
  -- The vertices that are left are consecutive, so the open piece ends where they start.
  induction vertices generalizing first next count held records with
  | nil =>
    -- No vertex is left, so the piece that is open takes all up to the stop.
    have none_there : records = [] := List.eq_nil_iff_forall_not_mem.mpr (by simpa using among)
    have ended : count = 0 := by simpa using congrArg List.length listed.symm
    subst none_there
    rw [cut, List.append_nil]
    exact .last occupied (within.imp_right fun single => by omega)
  | cons vertex vertices ih =>
    cases count with
    | zero => cases listed
    | succ count =>
      rw [List.map_cons, List.range'_succ, List.cons.injEq] at listed
      obtain ⟨here, listedRest⟩ := listed
      have below : ∀ other ∈ vertices, vertex < other := by
        intro other member
        have number : other.toNat ∈ vertices.map UInt64.toNat := List.mem_map_of_mem member
        rw [listedRest, List.mem_range'_1] at number
        exact UInt64.lt_iff_toNat_lt.mpr (by omega)
      -- The records of the vertex are taken off, and count as its degree.
      obtain ⟨own, rest, rfl, taken, dropped, parted⟩ := exists_parted below sorted among
      have counted : own.length = degree vertex :=
        (parted.count_own below).symm.trans (known vertex List.mem_cons_self)
      have knownRest : ∀ other ∈ vertices,
          (rest.countP fun record => record.major transposed = other) = degree other :=
        fun other member => (parted.count_later below member).symm.trans
          (known other (List.mem_cons_of_mem _ member))
      have inside : vertex < stop := UInt64.lt_iff_toNat_lt.mpr (by omega)
      simp only [cut, taken, dropped]
      split
      · rename_i full
        -- The piece that is open ends here, and the next one has one vertex so far.
        have later : Late most degree (cut most transposed stop vertex own vertices rest) :=
          ih inside (by omega) (by omega) listedRest (.inr (by omega)) parted.sorted parted.listed knownRest
        have start := cut_head_start most transposed stop vertex own vertices rest
        exact .cons full.1 (within.imp_right fun single => by omega) (counted ▸ full.2) start later
      · rename_i roomy
        -- The piece that is open takes the vertex in, either as its first one or within the budget.
        refine ih occupied (by omega) (by omega) listedRest ?_ parted.sorted parted.listed knownRest
        rw [List.length_append]
        by_cases opened : first < vertex
        · exact .inl (Nat.le_of_not_lt fun exceeds => roomy ⟨opened, exceeds⟩)
        · rw [UInt64.lt_iff_toNat_lt] at opened
          exact .inr (by omega)

/-- The pieces of a run that has a vertex are cut off late. -/
theorem pieces_late (budget : UInt64) {vertices : Span} {records : List EdgeRecord}
    (occupied : vertices.start < vertices.stop)
    (sorted : records.Pairwise fun left right =>
      left.majorNumber transposed ≤ right.majorNumber transposed)
    (inside : ∀ record ∈ records, vertices.contains (record.major transposed) = true) :
    Late (max budget.toNat 1) (fun vertex => records.countP fun record => record.major transposed = vertex)
      (pieces (some budget) transposed vertices records) := by
  have ordered := UInt64.lt_iff_toNat_lt.mp occupied
  -- At the start no record is held, which is within any budget.
  refine cut_late (max budget.toNat 1) occupied (Nat.le_refl _) ?_ vertices.map_toList
    (.inl (Nat.zero_le _)) sorted (fun record member => Span.mem_toList.mpr (inside record member))
    fun _ _ => rfl
  unfold Span.length
  omega

/-- A run without vertices is one piece. -/
theorem pieces_of_empty (budget : Option UInt64) {vertices : Span} (records : List EdgeRecord)
    (empty : vertices.start = vertices.stop) :
    pieces budget transposed vertices records = [(vertices, records)] := by
  have unlisted : vertices.toList = [] := by
    simp [Span.toList, Span.length, empty]
  -- With a budget the list of vertices is walked, and it is empty.
  cases budget with
  | none => rfl
  | some most =>
    unfold pieces
    rw [unlisted]
    rfl

/-- A segment that stores records of given vertices spans these. -/
theorem Stores.range_eq {segment : Segment} {vertices : Span} {records : List EdgeRecord}
    (stores : segment.Stores transposed vertices records) (ordered : vertices.start ≤ vertices.stop) :
    segment.range = vertices := by
  obtain ⟨start, stop⟩ := vertices
  have short : stop.toNat - start.toNat < 2 ^ 64 := Nat.lt_of_le_of_lt (Nat.sub_le _ _) stop.toNat_lt
  -- The length of a span is a word, so that counting it on from the start does not wrap.
  have ended : start + UInt64.ofNat (stop.toNat - start.toNat) = stop := by
    rw [UInt64.le_iff_toNat_le] at ordered
    dsimp only at ordered
    rw [← UInt64.toNat_inj, UInt64.toNat_add, UInt64.toNat_ofNat_of_lt' short,
      Nat.add_sub_cancel' ordered, Nat.mod_eq_of_lt stop.toNat_lt]
  unfold range
  rw [stores.starts, stores.counts]
  exact congrArg _ ended

/-- Whether segments follow one another through a run of vertices and part its sorted records. -/
structure Tiles (transposed : Bool) (vertices : Span) (records : List EdgeRecord)
    (segments : List Segment) : Prop where
  /-- The first segment starts with the run. -/
  starts : (segments.head?.map fun segment => segment.range.start) = some vertices.start
  /-- Every segment starts where the one before it ends. -/
  adjacent : segments.IsChain fun left right => left.range.stop = right.range.start
  /-- The last segment ends with the run. -/
  stops : (segments.getLast?.map fun segment => segment.range.stop) = some vertices.stop
  /-- Every vertex lies in one segment alone, and has its records there. -/
  covers : ∀ vertex, vertices.contains vertex = true → ∃ front segment back,
    segments = front ++ segment :: back ∧ segment.range.contains vertex = true ∧
    segment.row (vertex - segment.range.start).toNat =
      (records.filter fun record => record.major transposed = vertex).map
        (HalfEdge.ofRecord transposed) ∧
    ∀ other ∈ front ++ back, other.range.contains vertex = false
  /-- A segment has the edges of its own vertices only. -/
  counts : ∀ segment ∈ segments, segment.edgeCount =
    records.countP fun record => segment.range.contains (record.major transposed)
  /-- All segments together have as many edges as there are records. -/
  total : (segments.map edgeCount).sum = records.length

/-- Whether segments tile a run of vertices, each as long as a budget allows. -/
structure Greedy (most : Nat) (transposed : Bool) (vertices : Span) (records : List EdgeRecord)
    (segments : List Segment) : Prop extends Tiles transposed vertices records segments where
  /-- No segment of a run with vertices is without any. -/
  occupied : vertices.start < vertices.stop →
    ∀ segment ∈ segments, segment.range.start < segment.range.stop
  /-- A run without vertices has a single segment. -/
  single : vertices.start = vertices.stop → segments.length = 1
  /-- Only a segment of one vertex may exceed the budget. -/
  bounded : ∀ segment ∈ segments, segment.edgeCount ≤ most ∨ segment.vertexCount = 1
  /-- The edges of the vertex after a segment did not fit into it. -/
  late : segments.IsChain fun left right => most < left.edgeCount +
    records.countP fun record => record.major transposed = right.range.start

section Stored

variable {vertices : Span} {records : List EdgeRecord} {pieces : List (Span × List EdgeRecord)}
  {made : Span × List EdgeRecord → Segment}
  (tiling : Tiling transposed vertices.start vertices.stop records pieces)
  (stores : ∀ piece ∈ pieces, (made piece).Stores transposed piece.1 piece.2)

include tiling stores

/-- A segment that stores a piece of a run spans the vertices of the piece. -/
theorem range_of_stores : ∀ piece ∈ pieces, (made piece).range = piece.1 :=
  fun piece member => (stores piece member).range_eq (tiling.start_le_stop piece member)

/-- Segments that store the pieces of a run tile it. -/
theorem tiles_of_stores : Tiles transposed vertices records (pieces.map made) := by
  have ranges := range_of_stores tiling stores
  refine { starts := ?_, adjacent := ?_, stops := ?_, covers := ?_, counts := ?_, total := ?_ }
  · rw [List.head?_map, Option.map_map, ← tiling.head_start]
    refine Option.map_congr fun piece isHead => ?_
    rw [Function.comp_apply, ranges piece (List.mem_of_head? isHead)]
  · rw [List.isChain_map]
    refine tiling.adjacent.imp_of_mem_imp fun left right leftHeld rightHeld meet => ?_
    rw [ranges left leftHeld, ranges right rightHeld, meet]
  · rw [List.getLast?_map, Option.map_map, ← tiling.last_stop]
    refine Option.map_congr fun piece isLast => ?_
    rw [Function.comp_apply, ranges piece (List.mem_of_getLast? isLast)]
  · -- The piece of a vertex is the only one that the vertex lies in.
    intro vertex owned
    obtain ⟨front, piece, back, split, found, -, later, same⟩ := tiling.exists_piece owned
    have apart := tiling.apart
    subst split
    have held : piece ∈ front ++ piece :: back := by simp
    refine ⟨front.map made, made piece, back.map made, by simp, ?_, ?_, ?_⟩
    · rw [ranges piece held, found]
    · rw [ranges piece held, (stores piece held).rows vertex found, same]
    · intro other member
      rw [← List.map_append] at member
      obtain ⟨own, ownHeld, rfl⟩ := List.mem_map.mp member
      obtain ⟨lower, upper⟩ := Span.contains_iff.mp found
      -- Earlier pieces end before the one of the vertex, and later ones start after the vertex.
      rcases List.mem_append.mp ownHeld with before | after
      · have ends := (List.pairwise_append.mp apart).2.2 own before piece List.mem_cons_self
        rw [ranges own (by simp [before]), ← Bool.not_eq_true, Span.contains_iff]
        rw [UInt64.le_iff_toNat_le] at ends
        omega
      · have starts := UInt64.lt_iff_toNat_lt.mp (later own after)
        rw [ranges own (by simp [after]), ← Bool.not_eq_true, Span.contains_iff]
        omega
  · intro segment member
    obtain ⟨piece, held, rfl⟩ := List.mem_map.mp member
    rw [(stores piece held).entries, ranges piece held, List.countP_eq_length_filter,
      ← tiling.held_eq piece held]
  · rw [← tiling.sum_lengths, List.map_map]
    exact congrArg List.sum (List.map_congr_left fun piece held => (stores piece held).entries)

/-- Pieces of a run with vertices that are cut off late are stored as late. -/
theorem greedy_of_late {most : Nat} (late : Late most
      (fun vertex => records.countP fun record => record.major transposed = vertex) pieces)
    (occupied : vertices.start < vertices.stop) :
    Greedy most transposed vertices records (pieces.map made) := by
  -- Each segment spans its piece and stores its records, which carries all three properties over.
  have ranges := range_of_stores tiling stores
  refine { tiles_of_stores tiling stores with
    occupied := fun _ => ?_, single := ?_, bounded := ?_, late := ?_ }
  · intro segment member
    obtain ⟨piece, held, rfl⟩ := List.mem_map.mp member
    rw [ranges piece held]
    exact late.occupied piece held
  · intro empty
    rw [empty] at occupied
    exact absurd occupied (UInt64.lt_irrefl _)
  · intro segment member
    obtain ⟨piece, held, rfl⟩ := List.mem_map.mp member
    rw [(stores piece held).entries, (stores piece held).counts]
    exact late.bounded piece held
  · rw [List.isChain_map]
    refine late.late.imp_of_mem_imp fun left right leftHeld rightHeld exceeds => ?_
    rw [(stores left leftHeld).entries, ranges right rightHeld]
    exact exceeds

omit tiling stores in
/-- A run without vertices is stored by a segment without vertices. -/
theorem greedy_of_empty (most : Nat) {segment : Segment}
    (stores : segment.Stores transposed vertices records) (empty : vertices.start = vertices.stop)
    (inside : ∀ record ∈ records, vertices.contains (record.major transposed) = true) :
    Greedy most transposed vertices records [segment] := by
  -- A record would need a vertex of the run to belong to.
  have none_there : records = [] := List.eq_nil_iff_forall_not_mem.mpr fun record member => by
    have owned := Span.contains_iff.mp (inside record member)
    rw [empty] at owned
    omega
  have tiling : Tiling transposed vertices.start vertices.stop records [(vertices, records)] :=
    .last (UInt64.le_of_eq empty) inside
  have each : ∀ piece ∈ [(vertices, records)], segment.Stores transposed piece.1 piece.2 := by
    simpa using stores
  refine { tiles_of_stores tiling each with
    occupied := fun vertex => ?_, single := fun _ => rfl, bounded := ?_, late := .singleton _ }
  · rw [empty] at vertex
    exact absurd vertex (UInt64.lt_irrefl _)
  · intro other member
    rw [List.mem_singleton.mp member, stores.entries, none_there]
    exact .inl (Nat.zero_le _)

end Stored

/-- Segments that are built from the sorted records of a run span the pieces that the run is cut into. -/
theorem map_range_of_buildAll (member : Member size) (budget : Option UInt64) {vertices : Span}
    {records : List EdgeRecord} (ordered : vertices.start ≤ vertices.stop)
    (sorted : records.Pairwise fun left right =>
      left.majorNumber transposed ≤ right.majorNumber transposed)
    (inside : ∀ record ∈ records, vertices.contains (record.major transposed) = true)
    {segments : List Segment}
    (built : buildAll member budget transposed vertices records = .ok segments) :
    segments.map range = (pieces budget transposed vertices records).map Prod.fst := by
  -- The segments store the pieces one by one, and each spans what it stores.
  obtain ⟨made, stores, rfl⟩ :=
    View.exists_stores_of_buildAll member budget ordered sorted inside built
  rw [List.map_map]
  exact List.map_congr_left (range_of_stores (pieces_tiling budget ordered sorted inside) stores)

/-- Whatever the budget, segments that are built from the sorted records of a run tile it, each as long as the
budget allows, and they are built if there are buffers for as many records. -/
theorem buildAll_greedy (member : Member size) (budget : UInt64) {vertices : Span}
    {records : List EdgeRecord} (ordered : vertices.start ≤ vertices.stop)
    (sorted : records.Pairwise fun left right =>
      left.majorNumber transposed ≤ right.majorNumber transposed)
    (inside : ∀ record ∈ records, vertices.contains (record.major transposed) = true) :
    (∀ segments, buildAll member (some budget) transposed vertices records = .ok segments →
      Greedy (max budget.toNat 1) transposed vertices records segments) ∧
    ((∀ length ≤ records.length, member.makeRoom HalfEdge.cellBytes length = .ok ()) →
      ∃ segments, buildAll member (some budget) transposed vertices records = .ok segments) := by
  refine ⟨fun segments built => ?_, View.exists_buildAll member (some budget) ordered sorted inside⟩
  obtain ⟨made, stores, rfl⟩ :=
    View.exists_stores_of_buildAll member (some budget) ordered sorted inside built
  have tiling := pieces_tiling (some budget) ordered sorted inside
  -- Only a run without vertices gets a segment without any.
  by_cases empty : vertices.start = vertices.stop
  · rw [pieces_of_empty (some budget) records empty] at stores ⊢
    exact greedy_of_empty _ (stores _ List.mem_cons_self) empty inside
  · have occupied : vertices.start < vertices.stop := UInt64.lt_of_le_of_ne ordered empty
    exact greedy_of_late tiling stores (pieces_late budget occupied sorted inside) occupied

/-- Four edges of one vertex exceed a budget of two, and part the vertices before and after it. -/
theorem buildAll_greedy_sample :
    let member : Member 1 := { rank := 0, memory := none }
    let records := EdgeRecord.ofEdges (0 : Fin 1) [⟨1, 0, none, none, none⟩, ⟨1, 0, none, none, none⟩,
      ⟨1, 4, none, none, none⟩, ⟨1, 4, none, none, none⟩, ⟨2, 3, none, none, none⟩,
      ⟨3, 3, none, none, none⟩]
    ∃ segments, buildAll member (some 2) false ⟨0, 5⟩ records = .ok segments ∧
      segments.map range = [⟨0, 1⟩, ⟨1, 2⟩, ⟨2, 5⟩] ∧ Greedy 2 false ⟨0, 5⟩ records segments := by
  intro member records
  have sorted : records.Pairwise fun left right =>
      left.majorNumber false ≤ right.majorNumber false := by decide
  have inside : ∀ record ∈ records, (⟨0, 5⟩ : Span).contains (record.major false) = true := by decide
  have room : ∀ length ≤ records.length, member.makeRoom HalfEdge.cellBytes length = .ok () :=
    fun length few => Member.makeRoom_of_unlimited rfl
      (Nat.le_trans (Nat.mul_le_mul_right _ few) (by decide))
  have ordered : (⟨0, 5⟩ : Span).start ≤ (⟨0, 5⟩ : Span).stop := by decide
  -- Cutting is decided by the records alone, and storing them needs room for six cells.
  obtain ⟨greedy, made⟩ := buildAll_greedy member 2 ordered sorted inside
  obtain ⟨segments, built⟩ := made room
  refine ⟨segments, built, ?_, greedy segments built⟩
  rw [map_range_of_buildAll member (some 2) ordered sorted inside built]
  decide

end DistGraph.Segment
