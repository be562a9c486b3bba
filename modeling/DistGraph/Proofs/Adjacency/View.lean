import DistGraph.Proofs.Adjacency.Pieces

/-! A view that is built from sorted records shows their edges. -/

namespace DistGraph

variable {size : Nat}

/-- What is stored of a record with its major endpoint is the edge that it stands for. -/
@[simp] theorem HalfEdge.toEdge_ofRecord (transposed : Bool) (record : EdgeRecord) :
    (ofRecord transposed record).toEdge transposed (record.major transposed) = record.toEdge := by
  cases transposed <;> rfl

namespace View

variable {view : View size} {records : List EdgeRecord}

/-- How many segments start at or before a vertex. -/
def started (view : View size) (vertex : VertexId) : Nat :=
  Search.partitionPoint view.segments.size fun i =>
    match view.segments[i]? with
    | some segment => segment.firstVertex ≤ vertex
    | none => false

/-- The segment of a vertex is the last one that has started, if it reaches as far as the vertex. -/
theorem locateVertex?_eq (view : View size) (vertex : VertexId) :
    view.locateVertex? vertex = match view.segments[view.started vertex - 1]? with
      | some segment =>
        if view.started vertex ≠ 0 ∧ (vertex - segment.firstVertex).toNat < segment.vertexCount then
          some (segment, (vertex - segment.firstVertex).toNat) else none
      | none => none := rfl

variable {front back : List Segment} {segment : Segment} {vertex : VertexId}

/-- The segments that start at or before a vertex come first. -/
theorem started_eq (split : view.segments.toList = front ++ segment :: back)
    (earlier : ∀ other ∈ front, other.firstVertex ≤ vertex) (starts : segment.firstVertex ≤ vertex)
    (later : ∀ other ∈ back, vertex < other.firstVertex) :
    view.started vertex = front.length + 1 := by
  have sizes : view.segments.size = front.length + 1 + back.length := by
    rw [← Array.length_toList, split]
    simp
    omega
  -- Segments start at or before the vertex up to the given one, and beyond the vertex after it.
  have starting : ∀ i (inside : i < view.segments.size),
      view.segments[i].firstVertex ≤ vertex ↔ i ≤ front.length := by
    intro i inside
    have read : (front ++ segment :: back)[i]? = some view.segments[i] := by
      rw [← split, Array.getElem?_toList, Array.getElem?_eq_getElem inside]
    -- Before, at or behind the given segment the array reads the parts of the list.
    rcases Nat.lt_trichotomy i front.length with before | here | after
    · rw [List.getElem?_append_left before] at read
      exact iff_of_true (earlier _ (List.mem_of_getElem? read)) (by omega)
    · subst here
      rw [List.getElem?_append_right (Nat.le_refl _), Nat.sub_self, List.getElem?_cons_zero,
        Option.some.injEq] at read
      exact iff_of_true (read ▸ starts) (Nat.le_refl _)
    · rw [List.getElem?_append_right (by omega),
        show i - front.length = (i - front.length - 1) + 1 by omega, List.getElem?_cons_succ] at read
      have beyond := later _ (List.mem_of_getElem? read)
      exact iff_of_false (UInt64.not_le.mpr beyond) (by omega)
  have passes : ∀ i (inside : i < view.segments.size),
      i < view.started vertex ↔ i ≤ front.length := by
    intro i inside
    unfold started
    rw [Search.lt_partitionPoint_iff _ inside, Array.getElem?_eq_getElem inside]
    · simp only [decide_eq_true_eq, starting i inside]
    · intro i j before small passed
      rw [Array.getElem?_eq_getElem (by omega)] at passed ⊢
      simp only [decide_eq_true_eq, starting] at passed ⊢
      omega
  -- So the partition point is right behind the given segment, also if that is the last one.
  have bound : view.started vertex ≤ view.segments.size := Search.partitionPoint_le _ _
  have own := passes front.length (by omega)
  rcases Nat.lt_or_ge (front.length + 1) view.segments.size with more | last
  · have next := passes (front.length + 1) more
    omega
  · omega

/-- A vertex is found in the segment of its piece. -/
theorem locateVertex?_eq_some (split : view.segments.toList = front ++ segment :: back)
    (earlier : ∀ other ∈ front, other.firstVertex ≤ vertex) (starts : segment.firstVertex ≤ vertex)
    (later : ∀ other ∈ back, vertex < other.firstVertex)
    (inside : (vertex - segment.firstVertex).toNat < segment.vertexCount) :
    view.locateVertex? vertex = some (segment, (vertex - segment.firstVertex).toNat) := by
  -- As many segments have started as there are up to this one, which is therefore looked at.
  have found : view.segments[front.length]? = some segment := by
    rw [← Array.getElem?_toList, split]
    simp
  rw [locateVertex?_eq, started_eq split earlier starts later, Nat.add_sub_cancel, found]
  exact if_pos ⟨Nat.succ_ne_zero _, inside⟩

/-- Whether a view has the edges of some records at the vertices of its rank. -/
def Shows (view : View size) (records : List EdgeRecord) : Prop :=
  ∀ vertex, view.range.contains vertex = true →
    view.edgesAt vertex = (records.filter fun record =>
      record.major view.transposed = vertex).map EdgeRecord.toEdge

section Stored

variable {pieces : List (Span × List EdgeRecord)} {made : Span × List EdgeRecord → Segment}
  (tiling : Tiling view.transposed view.range.start view.range.stop records pieces)
  (stores : ∀ piece ∈ pieces, (made piece).Stores view.transposed piece.1 piece.2)
  (segments : view.segments.toList = pieces.map made)

include tiling stores segments

/-- If the segments of a view store the pieces of some records, every own vertex is found in the segment of
its piece. -/
theorem exists_located_piece (owned : view.range.contains vertex = true) :
    ∃ piece ∈ pieces, piece.1.contains vertex = true ∧
      view.locateVertex? vertex = some (made piece, (vertex - piece.1.start).toNat) ∧
      piece.2.filter (fun record => record.major view.transposed = vertex) =
        records.filter fun record => record.major view.transposed = vertex := by
  -- The search finds the segment of the piece, since segments start where their pieces do.
  obtain ⟨front, piece, back, split, found, earlier, later, same⟩ := tiling.exists_piece owned
  subst split
  have stored := stores piece (by simp)
  obtain ⟨lower, upper⟩ := Span.contains_iff.mp found
  rw [List.map_append, List.map_cons] at segments
  refine ⟨piece, by simp, found, stored.starts ▸ locateVertex?_eq_some segments ?_ ?_ ?_ ?_, same⟩
  · intro other member
    obtain ⟨own, held, rfl⟩ := List.mem_map.mp member
    rw [(stores own (by simp [held])).starts]
    exact earlier own held
  · rw [stored.starts]
    exact UInt64.le_iff_toNat_le.mpr lower
  · intro other member
    obtain ⟨own, held, rfl⟩ := List.mem_map.mp member
    rw [(stores own (by simp [held])).starts]
    exact later own held
  · rw [stored.starts, stored.counts, Span.length,
      UInt64.toNat_sub_of_le _ _ (UInt64.le_iff_toNat_le.mpr lower)]
    omega

/-- If the segments of a view store the pieces of some records, every own vertex has a row, and that holds
its records. -/
theorem exists_located (owned : view.range.contains vertex = true) :
    ∃ segment index, view.locateVertex? vertex = some (segment, index) ∧
      segment.row index = (records.filter fun record => record.major view.transposed = vertex).map
        (HalfEdge.ofRecord view.transposed) := by
  obtain ⟨piece, held, found, located, same⟩ := exists_located_piece tiling stores segments owned
  exact ⟨made piece, _, located, by rw [(stores piece held).rows vertex found, same]⟩

/-- A view whose segments store the pieces of some records shows these records. -/
theorem shows_of_stores : view.Shows records := by
  intro vertex owned
  -- An own vertex is located in the segment of its piece, in a row that has its records.
  obtain ⟨segment, index, located, row⟩ := exists_located tiling stores segments owned
  unfold edgesAt halfEdges
  rw [if_pos owned, located]
  dsimp only
  rw [row, List.map_map]
  apply List.map_congr_left
  intro record member
  have major : record.major view.transposed = vertex :=
    of_decide_eq_true (List.mem_filter.mp member).2
  rw [Function.comp_apply, ← major, HalfEdge.toEdge_ofRecord]

end Stored

/-- A view that shows sorted records of its own vertices lists them in their order. -/
theorem Shows.edges_eq (shows : view.Shows records)
    (sorted : records.Pairwise fun left right =>
      left.majorNumber view.transposed ≤ right.majorNumber view.transposed)
    (inside : ∀ record ∈ records, view.range.contains (record.major view.transposed) = true) :
    view.edges = records.map EdgeRecord.toEdge := by
  have each : view.edges = view.range.toList.flatMap fun vertex =>
      (records.filter fun record => record.major view.transposed = vertex).map EdgeRecord.toEdge :=
    List.flatMap_congr fun vertex member => shows vertex (Span.mem_toList.mp member)
  -- Vertices come in ascending order, like the records.
  rw [each, ← List.map_flatMap, Span.flatMap_filter_major sorted inside]

/-- Segments are built from the pieces of the run, one after another. -/
theorem buildAll_eq (member : Member size) (budget : Option UInt64) (transposed : Bool)
    (vertices : Span) (records : List EdgeRecord) :
    Segment.buildAll member budget transposed vertices records =
      (Segment.pieces budget transposed vertices records).mapM fun piece =>
        Segment.build member transposed piece.1 piece.2 := rfl

section Segments

variable (member : Member size) (budget : Option UInt64) {transposed : Bool} {vertices : Span}
  (ordered : vertices.start ≤ vertices.stop)
  (sorted : records.Pairwise fun left right =>
    left.majorNumber transposed ≤ right.majorNumber transposed)
  (inside : ∀ record ∈ records, vertices.contains (record.major transposed) = true)

include ordered sorted inside

/-- Every piece of the sorted records of a rank has a segment that stores it, and is given it as
soon as there is a buffer. -/
theorem exists_made : ∃ made : Span × List EdgeRecord → Segment,
    ∀ piece ∈ Segment.pieces budget transposed vertices records,
      (made piece).Stores transposed piece.1 piece.2 ∧
      Segment.build member transposed piece.1 piece.2 =
        (member.makeRoom HalfEdge.cellBytes piece.2.length).map fun _ => made piece := by
  -- Each piece has sorted records of its own vertices, which is what a segment needs.
  have tiling := Segment.pieces_tiling budget ordered sorted inside
  have : Nonempty Segment := ⟨⟨0, 0, ⟨#[]⟩, false⟩⟩
  have each : ∀ piece ∈ Segment.pieces budget transposed vertices records, ∃ segment : Segment,
      segment.Stores transposed piece.1 piece.2 ∧
      Segment.build member transposed piece.1 piece.2 =
        (member.makeRoom HalfEdge.cellBytes piece.2.length).map fun _ => segment :=
    fun piece held => Segment.exists_build member (sorted.sublist (tiling.sublist piece held))
      (tiling.inside piece held)
  choose! made stores built using each
  exact ⟨made, fun piece held => ⟨stores piece held, built piece held⟩⟩

/-- The segments that are built from sorted records store the pieces of these. -/
theorem exists_stores_of_buildAll {segments : List Segment}
    (built : Segment.buildAll member budget transposed vertices records = .ok segments) :
    ∃ made : Span × List EdgeRecord → Segment,
      (∀ piece ∈ Segment.pieces budget transposed vertices records,
        (made piece).Stores transposed piece.1 piece.2) ∧
      segments = (Segment.pieces budget transposed vertices records).map made := by
  obtain ⟨made, known⟩ := exists_made member budget ordered sorted inside
  rw [buildAll_eq] at built
  -- All of them have succeeded, so that each piece was given the segment that stores it.
  have results : ∀ piece ∈ Segment.pieces budget transposed vertices records,
      Segment.build member transposed piece.1 piece.2 = .ok (made piece) := by
    intro piece held
    obtain ⟨segment, success⟩ := exists_of_mapM_eq_ok built piece held
    rw [(known piece held).2] at success ⊢
    cases room : member.makeRoom HalfEdge.cellBytes piece.2.length with
    | error error => simp [room] at success
    | ok granted => rfl
  rw [mapM_eq_ok results, Except.ok.injEq] at built
  exact ⟨made, fun piece held => (known piece held).1, built.symm⟩

/-- A view of the segments that are built from sorted records shows these records. -/
theorem shows_of_buildAll {segments : List Segment}
    (built : Segment.buildAll member budget transposed vertices records = .ok segments)
    (range : view.range = vertices) (orientation : view.transposed = transposed)
    (stored : view.segments = segments.toArray) : view.Shows records := by
  subst range orientation
  obtain ⟨made, stores, rfl⟩ := exists_stores_of_buildAll member budget ordered sorted inside built
  exact shows_of_stores (Segment.pieces_tiling budget ordered sorted inside) stores (by rw [stored])

/-- A view of the segments that are built from sorted records has a row for every own vertex. -/
theorem isSome_locateVertex?_of_buildAll {segments : List Segment}
    (built : Segment.buildAll member budget transposed vertices records = .ok segments)
    (range : view.range = vertices) (orientation : view.transposed = transposed)
    (stored : view.segments = segments.toArray) {vertex : VertexId}
    (owned : vertices.contains vertex = true) : (view.locateVertex? vertex).isSome := by
  subst range orientation
  -- The pieces cover the run, and each is stored by a segment.
  obtain ⟨made, stores, rfl⟩ := exists_stores_of_buildAll member budget ordered sorted inside built
  obtain ⟨segment, index, located, -⟩ := exists_located
    (Segment.pieces_tiling budget ordered sorted inside) stores (by rw [stored]) owned
  exact Option.isSome_of_eq_some located

/-- Segments that are built from sorted records have as many edges as there are records. -/
theorem sum_edgeCounts_of_buildAll {segments : List Segment}
    (built : Segment.buildAll member budget transposed vertices records = .ok segments) :
    (segments.map Segment.edgeCount).sum = records.length := by
  obtain ⟨made, stores, rfl⟩ := exists_stores_of_buildAll member budget ordered sorted inside built
  rw [← (Segment.pieces_tiling budget ordered sorted inside).sum_lengths, List.map_map]
  exact congrArg List.sum (List.map_congr_left fun piece held => (stores piece held).entries)

/-- Segments that are built from sorted records hold edges in rows of the given vertices only. -/
theorem row_inside_of_buildAll {segments : List Segment}
    (built : Segment.buildAll member budget transposed vertices records = .ok segments)
    {segment : Segment} (member : segment ∈ segments) {index : Nat}
    (filled : segment.table.row index ≠ []) :
    vertices.start.toNat ≤ segment.firstVertex.toNat + index ∧
      segment.firstVertex.toNat + index < vertices.stop.toNat := by
  have tiling := Segment.pieces_tiling budget ordered sorted inside
  obtain ⟨made, stores, rfl⟩ := exists_stores_of_buildAll _ budget ordered sorted inside built
  obtain ⟨piece, held, rfl⟩ := List.mem_map.mp member
  rw [(stores piece held).placed, ne_eq, List.map_eq_nil_iff, List.filter_eq_nil_iff] at filled
  push Not at filled
  obtain ⟨record, own, place⟩ := filled
  -- The row belongs to the major endpoint of a record, which is a vertex of the piece.
  have above := (Span.contains_iff.mp (tiling.inside piece held record own)).1
  have place := of_decide_eq_true place
  rw [UInt64.toNat_sub_of_le _ _ (UInt64.le_iff_toNat_le.mpr above)] at place
  have owned := Span.contains_iff.mp (inside record ((tiling.sublist piece held).subset own))
  rw [(stores piece held).starts]
  omega

/-- Sorted records fail to be built into segments only where there is no buffer for some of them. -/
theorem exists_of_buildAll_eq_error {error : Failure}
    (failing : Segment.buildAll member budget transposed vertices records = .error error) :
    ∃ length ≤ records.length, member.makeRoom HalfEdge.cellBytes length = .error error := by
  obtain ⟨made, known⟩ := exists_made member budget ordered sorted inside
  have tiling := Segment.pieces_tiling budget ordered sorted inside
  rw [buildAll_eq] at failing
  -- The first piece to fail has no more records than there are.
  obtain ⟨piece, held, failed⟩ := exists_of_mapM_eq_error failing
  refine ⟨piece.2.length, (tiling.sublist piece held).length_le, ?_⟩
  rw [(known piece held).2] at failed
  cases room : member.makeRoom HalfEdge.cellBytes piece.2.length with
  | error reason => simpa [room] using failed
  | ok granted => simp [room] at failed

/-- Sorted records are built into segments if there are buffers for as many. -/
theorem exists_buildAll
    (room : ∀ length ≤ records.length, member.makeRoom HalfEdge.cellBytes length = .ok ()) :
    ∃ segments, Segment.buildAll member budget transposed vertices records = .ok segments := by
  -- A failure would be the want of a buffer that is there.
  cases built : Segment.buildAll member budget transposed vertices records with
  | ok segments => exact ⟨segments, rfl⟩
  | error error =>
    obtain ⟨length, few, failed⟩ :=
      exists_of_buildAll_eq_error member budget ordered sorted inside built
    rw [room length few] at failed
    cases failed

end Segments

end View

end DistGraph
