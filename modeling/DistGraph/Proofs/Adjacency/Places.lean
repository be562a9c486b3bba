import DistGraph.Proofs.Adjacency.Build
import DistGraph.Proofs.Adjacency.Greedy
import DistGraph.Proofs.Cluster.Yields

/-! Places among the vertices of a rank, looked up in the segments of its view. -/

namespace DistGraph

variable {size : Nat}

namespace View

/-- Whether the segments of a view store records, piece by piece along the vertices of the rank. -/
def Tiled (view : View size) : Prop :=
  -- The records are whatever has reached the rank.
  ∃ (records : List EdgeRecord) (pieces : List (Span × List EdgeRecord))
    (made : Span × List EdgeRecord → Segment),
    Tiling view.transposed view.range.start view.range.stop records pieces ∧
    (∀ piece ∈ pieces, (made piece).Stores view.transposed piece.1 piece.2) ∧
    view.segments.toList = pieces.map made

/-- Whether a segment is the only one of a view that a vertex lies in. -/
def Holds (view : View size) (segment : Segment) (vertex : VertexId) : Prop :=
  -- Segments are told apart by where they stand in the view.
  ∃ front back, view.segments.toList = front ++ segment :: back ∧
    segment.range.contains vertex = true ∧ ∀ other ∈ front ++ back, other.range.contains vertex = false

/-- Whether places among the vertices of a rank are looked up without fault as far as they have ids, and
found exactly if they are the places of vertices. -/
structure Finds (view : View size) : Prop where
  /-- A place that has an id is looked up, for its segment and for its row alike. -/
  answers : ∀ place : UInt64, view.range.start.toNat + place.toNat < UInt64.size → ∃ found,
    view.locatePlace place = .ok found ∧
    view.storedAt place = .ok (found.map fun (segment, row) => segment.row row) ∧
    (found.isSome ↔ place.toNat < view.range.length) ∧
    ∀ segment row, found = some (segment, row) →
      view.Holds segment (view.range.start + place) ∧
        segment.firstVertex.toNat + row = view.range.start.toNat + place.toNat
  /-- The id of a place that is too far out does not fit a word. -/
  overflows : ∀ place : UInt64, UInt64.size ≤ view.range.start.toNat + place.toNat →
    view.locatePlace place = .error .overflow ∧ view.storedAt place = .error .overflow

/-- A place that the id space has room for is looked up as the vertex at that distance from the first one.
-/
theorem locatePlace_of_lt {view : View size} {place : UInt64}
    (small : view.range.start.toNat + place.toNat < UInt64.size) :
    view.locatePlace place = .ok (view.locateVertex? (view.range.start + place)) := by
  -- The sum is a word, so that adding it up raises no overflow.
  have added : Word.add view.range.start place = .ok (view.range.start + place) := by
    rw [Word.add_eq_ok_iff, UInt64.toNat_add, Nat.mod_eq_of_lt small]
  rw [locatePlace, added]
  rfl

/-- A place without an id is refused before any segment is looked at. -/
theorem locatePlace_of_ge {view : View size} {place : UInt64}
    (great : UInt64.size ≤ view.range.start.toNat + place.toNat) :
    view.locatePlace place = .error .overflow := by
  have refused : Word.add view.range.start place = .error .overflow := dif_neg (Nat.not_lt.mpr great)
  rw [locatePlace, refused]
  rfl

/-- A place beyond the id space makes the lookup overflow. -/
theorem storedAt_of_ge {view : View size} {place : UInt64}
    (great : UInt64.size ≤ view.range.start.toNat + place.toNat) :
    view.storedAt place = .error .overflow := by
  rw [storedAt, locatePlace_of_ge great]
  rfl

section Tiled

variable {view : View size} {records : List EdgeRecord} {pieces : List (Span × List EdgeRecord)}
  {made : Span × List EdgeRecord → Segment}
  (tiling : Tiling view.transposed view.range.start view.range.stop records pieces)
  (stores : ∀ piece ∈ pieces, (made piece).Stores view.transposed piece.1 piece.2)
  (segments : view.segments.toList = pieces.map made)

include tiling stores segments

/-- A segment that an own vertex lies in is the only one. -/
theorem holds_of_contains {segment : Segment} {vertex : VertexId} (held : segment ∈ view.segments.toList)
    (owned : view.range.contains vertex = true) (found : segment.range.contains vertex = true) :
    view.Holds segment vertex := by
  -- The segments tile the run, so the vertex has one segment and all others miss it.
  have tiles : Segment.Tiles view.transposed view.range records (pieces.map made) :=
    Segment.tiles_of_stores tiling stores
  obtain ⟨front, only, back, split, inside, -, others⟩ := tiles.covers vertex owned
  rw [← segments] at split
  have same : segment = only := by
    rw [split, List.mem_append, List.mem_cons] at held
    rcases held with before | rfl | after
    · simp [others segment (List.mem_append_left _ before)] at found
    · rfl
    · simp [others segment (List.mem_append_right _ after)] at found
  subst same
  exact ⟨front, back, split, inside, others⟩

/-- Beyond the vertices of the rank nothing is found. -/
theorem locateVertex?_eq_none {vertex : VertexId} (beyond : view.range.stop ≤ vertex) :
    view.locateVertex? vertex = none := by
  -- Halving may end at some segment, but the vertex is not among the rows of that one.
  rw [locateVertex?_eq]
  split
  · rename_i segment found
    have held : segment ∈ pieces.map made := by
      rw [← segments, Array.mem_toList_iff]
      exact Array.mem_of_getElem? found
    obtain ⟨piece, own, rfl⟩ := List.mem_map.mp held
    -- The piece of the segment ends with the run of the rank or before.
    have starts := UInt64.le_iff_toNat_le.mp (tiling.start_le_stop piece own)
    have stops := UInt64.le_iff_toNat_le.mp (tiling.stop_le piece own)
    rw [UInt64.le_iff_toNat_le] at beyond
    refine if_neg fun inside => ?_
    have row := inside.2
    rw [(stores piece own).starts, (stores piece own).counts, Span.length,
      UInt64.toNat_sub_of_le _ _ (UInt64.le_iff_toNat_le.mpr (by omega))] at row
    omega
  · rfl

/-- A vertex that is found is counted from the first vertex of its segment. -/
theorem exists_locateVertex?_eq {vertex : VertexId} (owned : view.range.contains vertex = true) :
    ∃ segment row, view.locateVertex? vertex = some (segment, row) ∧ view.Holds segment vertex ∧
      segment.firstVertex.toNat + row = vertex.toNat := by
  -- The vertex is found in the segment of the piece that holds it.
  obtain ⟨piece, held, found, located, -⟩ := exists_located_piece tiling stores segments owned
  have spanned := (stores piece held).range_eq (tiling.start_le_stop piece held)
  have stored : made piece ∈ view.segments.toList := segments ▸ List.mem_map_of_mem held
  have lower := (Span.contains_iff.mp found).1
  have holds := holds_of_contains tiling stores segments stored owned (spanned ▸ found)
  refine ⟨made piece, _, located, holds, ?_⟩
  rw [(stores piece held).starts, UInt64.toNat_sub_of_le _ _ (UInt64.le_iff_toNat_le.mpr lower)]
  omega

end Tiled

/-- Places are found in segments that store records piece by piece. -/
theorem Tiled.finds {view : View size} (tiled : view.Tiled) : view.Finds := by
  obtain ⟨records, pieces, made, tiling, stores, segments⟩ := tiled
  -- Either the place has an id, which is inside or beyond the run, or it has none.
  refine ⟨fun place small => ?_, fun place great => ⟨locatePlace_of_ge great, storedAt_of_ge great⟩⟩
  have sum : (view.range.start + place).toNat = view.range.start.toNat + place.toNat := by
    rw [UInt64.toNat_add, Nat.mod_eq_of_lt small]
  have located := locatePlace_of_lt small
  have stored : view.storedAt place = .ok ((view.locateVertex? (view.range.start + place)).map
      fun (segment, row) => segment.row row) := by
    rw [storedAt, located]
    rfl
  refine ⟨_, located, stored, ?_⟩
  -- Inside the run the segments have a row for the id, and beyond it they have none.
  rcases Nat.lt_or_ge place.toNat view.range.length with inside | outside
  · have owned : view.range.contains (view.range.start + place) = true := by
      unfold Span.length at inside
      rw [Span.contains_iff]
      omega
    obtain ⟨segment, row, known, holds, counted⟩ := exists_locateVertex?_eq tiling stores segments owned
    rw [known, ← sum]
    refine ⟨iff_of_true rfl inside, fun _ _ same => ?_⟩
    cases same
    exact ⟨holds, counted⟩
  · have beyond : view.range.stop ≤ view.range.start + place := by
      unfold Span.length at outside
      rw [UInt64.le_iff_toNat_le]
      omega
    rw [locateVertex?_eq_none tiling stores segments beyond]
    exact ⟨iff_of_false (by simp) (Nat.not_lt.mpr outside), fun _ _ same => nomatch same⟩

/-- Whatever records a rank receives, it stores them piece by piece or fails. -/
theorem build_yields {self : Member size} (lawful : self.sorter.Lawful) (records : List EdgeRecord)
    (partition : Partition size) (transposed : Bool) (budget : Option UInt64) :
    (build self records partition transposed budget).Yields Tiled := by
  -- A record of another rank ends the work, so what is stored are records of own vertices.
  rw [build_eq rfl]
  refine (Program.yields_ofExcept _).bind fun _ accepted => ?_
  refine .after fun total => (Program.yields_ofExcept _).bind fun segments built => ?_
  have own := refuseStray_eq_ok_iff.mp accepted
  have inside : ∀ record ∈ self.sorter.records transposed records,
      (partition.spanOf self.rank).contains (record.major transposed) = true :=
    fun record member => own record ((lawful.records_perm _ _).subset member)
  have ordered := partition.spanOf_ordered self.rank
  have sorted := majors_ascend lawful transposed records
  obtain ⟨made, stores, rfl⟩ := exists_stores_of_buildAll self budget ordered sorted inside built
  exact ⟨_, _, made, Segment.pieces_tiling budget ordered sorted inside, stores, rfl⟩

/-- A view whose edges are turned around stores them piece by piece again. -/
theorem transpose_yields {self : Member size} (lawful : self.sorter.Lawful) (view : View size) :
    (transpose self view).Yields Tiled :=
  .after fun received => build_yields lawful received view.partition view.transposed view.segmentBudget

end View

end DistGraph
