import DistGraph.Proofs.Partition
import Mathlib.Logic.ExistsUnique

/-! All queries of a partition agree on one tiling of the ids, however the ids were shared out. -/

namespace DistGraph.Partition

variable {ranks : Nat}

/-- Every query of a partition is answered from the same runs, which tile the ids below the vertex count. -/
structure Consistent (partition : Partition ranks) : Prop where
  /-- The first run starts at zero. -/
  first : partition.boundaries.head? = some 0
  /-- No boundary lies before an earlier one. -/
  ordered : partition.boundaries.Pairwise (· ≤ ·)
  /-- The last run ends at the vertex count. -/
  last : partition.boundaries.getLast? = some partition.vertexCount
  /-- A run lies between two neighbouring boundaries. -/
  between : ∀ rank : Fin ranks,
    partition.boundaries[rank.val]? = some (partition.spanOf rank).start ∧
      partition.boundaries[rank.val + 1]? = some (partition.spanOf rank).stop
  /-- The owner of an id is the rank whose run holds the id. -/
  owned : ∀ vertex rank, partition.owner? vertex = some rank ↔
    (partition.spanOf rank).start ≤ vertex ∧ vertex < (partition.spanOf rank).stop
  /-- A vertex lies in the run of exactly one rank. -/
  alone : ∀ vertex < partition.vertexCount,
    ∃! rank, (partition.spanOf rank).start ≤ vertex ∧ vertex < (partition.spanOf rank).stop
  /-- An id that is no vertex has no owner. -/
  beyond : ∀ vertex, partition.vertexCount ≤ vertex → partition.owner? vertex = none
  /-- Some boundary lies at or below every id, so there is a rank before the next one. -/
  reached : ∀ vertex, 0 < partition.boundariesUpTo vertex
  /-- A rank owns what it is the owner of. -/
  owns : ∀ vertex rank, partition.owns vertex rank = true ↔ partition.owner? vertex = some rank
  /-- The place of an id is counted from the start of its owner's run and lies within that run. -/
  placed : ∀ vertex rank place, partition.position? vertex = some (rank, place) ↔
    partition.owner? vertex = some rank ∧ place < partition.countOf rank ∧
      (partition.spanOf rank).start.toNat + place.toNat = vertex.toNat
  /-- The count of a rank is the length of its run. -/
  counted : ∀ rank, (partition.spanOf rank).start.toNat + (partition.countOf rank).toNat =
    (partition.spanOf rank).stop.toNat
  /-- The listed counts and runs are those of the single ranks. -/
  listed : ∀ rank, partition.counts.get rank = partition.countOf rank ∧
    partition.spans.get rank = partition.spanOf rank
  /-- No rank owns more than the largest count. -/
  bounded : ∀ rank, partition.countOf rank ≤ partition.largestCount
  /-- Some rank owns as many ids as the largest count says. -/
  attained : ranks ≠ 0 → ∃ rank, partition.countOf rank = partition.largestCount

/-- The counts of the first ranks add up to the boundary after them. -/
theorem sum_take_counts (partition : Partition ranks) (index : Nat) (inside : index ≤ ranks) :
    ((partition.counts.toList.take index).map UInt64.toNat).sum = partition.boundary index inside := by
  -- Every rank adds the length of its run to the boundary that the run starts at.
  induction index with
  | zero => simp
  | succ index ih =>
    have run : partition.boundary index (by omega) + (partition.countOf ⟨index, inside⟩).toNat =
        partition.boundary (index + 1) inside :=
      partition.start_add_countOf ⟨index, inside⟩
    have entry : partition.counts.toList[index]? = some (partition.countOf ⟨index, inside⟩) := by
      rw [List.getElem?_eq_getElem (by simpa using Nat.lt_of_succ_le inside)]
      simp [counts]
    rw [List.take_add_one, entry, List.map_append, List.sum_append, ih (by omega), ← run]
    simp

/-- All counts together are the vertex count. -/
theorem sum_counts (partition : Partition ranks) :
    (partition.counts.toList.map UInt64.toNat).sum = partition.vertexCount.toNat := by
  have whole := partition.sum_take_counts ranks (Nat.le_refl _)
  rwa [List.take_of_length_le (by simp)] at whole

/-- Two partitions with the same boundaries are the same. -/
theorem ext_boundary {partition other : Partition ranks}
    (same : ∀ index inside, partition.boundary index inside = other.boundary index inside) :
    partition = other := by
  -- The laws that a partition carries are about its boundaries and add nothing to them.
  have length := partition.length_boundaries
  have length' := other.length_boundaries
  have boundaries : partition.boundaries = other.boundaries := by
    apply List.ext_getElem (by omega)
    intro index inside _
    exact UInt64.toNat_inj.mp (same index (by omega))
  cases partition
  cases other
  simpa using boundaries

/-- The counts of a partition make that partition again. -/
theorem ofCounts_counts (occupied : ranks ≠ 0) (partition : Partition ranks) :
    ofCounts partition.counts = .ok partition := by
  -- The vertex count is a word, so the counts together fit one.
  have fits : (partition.counts.toList.map UInt64.toNat).sum < UInt64.size := by
    rw [sum_counts]
    exact UInt64.toNat_lt_size _
  obtain ⟨again, shared⟩ := exists_ofCounts occupied fits
  have same : again = partition := ext_boundary fun index inside => by
    rw [boundary_ofCounts shared, sum_take_counts]
  rw [shared, same]

/-- The largest count is the greatest of no ids and all counts. -/
theorem max?_counts (partition : Partition ranks) :
    (0 :: partition.counts.toList).max? = some partition.largestCount := by
  rw [List.max?_cons', largestCount, Vector.foldl_toList]

/-- Every rank's count is among all counts. -/
theorem countOf_mem_counts (partition : Partition ranks) (rank : Fin ranks) :
    partition.countOf rank ∈ partition.counts.toList := by
  simp [counts]

/-- No rank owns more than the largest count. -/
theorem countOf_le_largestCount (partition : Partition ranks) (rank : Fin ranks) :
    partition.countOf rank ≤ partition.largestCount :=
  (List.max?_eq_some_iff.mp partition.max?_counts).2 _
    (List.mem_cons_of_mem _ (partition.countOf_mem_counts rank))

/-- With any rank at all, the largest count is the count of a rank. -/
theorem exists_countOf_eq_largestCount (occupied : ranks ≠ 0) (partition : Partition ranks) :
    ∃ rank, partition.countOf rank = partition.largestCount := by
  have greatest := (List.max?_eq_some_iff.mp partition.max?_counts).1
  rcases List.mem_cons.mp greatest with zero | listed
  · -- Nothing is more than no ids, so the first rank has as few.
    have rank : Fin ranks := ⟨0, Nat.pos_of_ne_zero occupied⟩
    have none := zero ▸ partition.countOf_le_largestCount rank
    exact ⟨rank, by rw [zero]; exact UInt64.le_antisymm none UInt64.zero_le⟩
  · simpa [counts] using listed

/-- An id stands in its owner's run at its distance from the start. -/
theorem position?_eq_some_iff {partition : Partition ranks} {vertex : VertexId} {rank : Fin ranks}
    {place : UInt64} :
    partition.position? vertex = some (rank, place) ↔
      partition.owner? vertex = some rank ∧ place < partition.countOf rank ∧
        (partition.spanOf rank).start.toNat + place.toNat = vertex.toNat := by
  have answer : partition.position? vertex = some (rank, place) ↔
      partition.owner? vertex = some rank ∧ vertex - (partition.spanOf rank).start = place := by
    simp only [position?, Option.map_eq_some_iff, Prod.mk.injEq]
    constructor
    · rintro ⟨owner, owned, rfl, distance⟩
      exact ⟨owned, distance⟩
    · rintro ⟨owned, distance⟩
      exact ⟨rank, owned, rfl, distance⟩
  -- An owner is asked for on both sides, so only the distance is left to compare.
  rw [answer, and_congr_right_iff]
  intro owned
  have inside := Span.contains_iff.mp (owner?_eq_some_iff.mp owned)
  have run := partition.start_add_countOf rank
  -- The id is not before the start of its owner's run, so the distance does not wrap.
  have distance : (vertex - (partition.spanOf rank).start).toNat =
      vertex.toNat - (partition.spanOf rank).start.toNat :=
    UInt64.toNat_sub_of_le _ _ (UInt64.le_iff_toNat_le.mpr inside.1)
  rw [← UInt64.toNat_inj, UInt64.lt_iff_toNat_lt]
  omega

/-- All queries of a partition agree, because each of them reads the boundaries alone. -/
theorem consistent (partition : Partition ranks) : partition.Consistent where
  first := partition.starts_at_zero
  ordered := partition.ordered
  last := by
    have length := partition.length_boundaries
    rw [List.getLast?_eq_getElem?, List.getElem?_eq_getElem (by omega)]
    simp [vertexCount, length]
  between rank := by
    have length := partition.length_boundaries
    exact ⟨List.getElem?_eq_getElem (by omega), List.getElem?_eq_getElem (by omega)⟩
  -- Ownership is told by the runs, which tile the ids.
  owned vertex rank := by
    rw [owner?_eq_some_iff]
    simp [Span.contains]
  alone vertex inside := by
    obtain ⟨rank, owned⟩ := Option.isSome_iff_exists.mp (owner?_isSome_iff.mpr inside)
    have held := owner?_eq_some_iff.mp owned
    refine ⟨rank, by simpa [Span.contains] using held, fun other owned' => ?_⟩
    exact spanOf_unique (by simpa [Span.contains] using owned') held
  beyond vertex outside := by
    rw [← Option.not_isSome_iff_eq_none, owner?_isSome_iff]
    exact UInt64.not_lt.mpr outside
  -- The search for an id is never left without a boundary below.
  reached vertex := by
    rw [partition.lt_boundariesUpTo_iff vertex 0 (by omega), boundary_zero]
    omega
  owns vertex rank := owner?_eq_some_iff.symm
  placed vertex rank place := position?_eq_some_iff
  counted := partition.start_add_countOf
  listed rank := ⟨Vector.getElem_ofFn rank.isLt, Vector.getElem_ofFn rank.isLt⟩
  bounded := partition.countOf_le_largestCount
  attained occupied := exists_countOf_eq_largestCount occupied partition

/-- An even run starts after the full shares of the ranks before it and one surplus id for each. -/
theorem boundary_even {count : UInt64} {partition : Partition ranks}
    (shared : even count ranks = .ok partition) (index : Nat) (inside : index ≤ ranks) :
    partition.boundary index inside =
      index * (count.toNat / ranks) + min index (count.toNat % ranks) := by
  -- No start lies above the vertex count, so the word of a start keeps its value.
  have shares : index * (count.toNat / ranks) ≤ ranks * (count.toNat / ranks) :=
    Nat.mul_le_mul_right _ inside
  have whole := Nat.div_add_mod count.toNat ranks
  have word := count.toNat_lt_size
  unfold even at shared
  split at shared
  · cases shared
  · split at shared
    · cases shared
    · rename_i starts started
      cases shared
      rw [evenStarts_eq_ok, Except.ok.injEq] at started
      subst started
      simp only [boundary, List.getElem_map, List.getElem_range]
      exact UInt64.toNat_ofNat_of_lt' (by omega)

/-- An even count is a full share, and one id more on the ranks that take the surplus. -/
theorem countOf_even {count : UInt64} {partition : Partition ranks}
    (shared : even count ranks = .ok partition) (rank : Fin ranks) :
    (partition.countOf rank).toNat =
      count.toNat / ranks + if rank.val < count.toNat % ranks then 1 else 0 := by
  -- The surplus before the next rank is greater by one exactly while there is surplus left.
  have run : partition.boundary rank (by omega) + (partition.countOf rank).toNat =
      partition.boundary (rank + 1) (by omega) := partition.start_add_countOf rank
  rw [boundary_even shared, boundary_even shared, Nat.succ_mul] at run
  split <;> omega

/-- Counts that fit a word together make a partition whose queries agree, and so does every vertex count. -/
theorem sharing_exact (occupied : ranks ≠ 0) :
    (∀ counts : Vector UInt64 ranks, (counts.toList.map UInt64.toNat).sum < UInt64.size →
      ∃ partition, ofCounts counts = .ok partition ∧ partition.Consistent ∧
        partition.counts = counts ∧
        partition.vertexCount.toNat = (counts.toList.map UInt64.toNat).sum ∧
        ofCounts partition.counts = .ok partition) ∧
    ∀ count : UInt64, ∃ partition, even count ranks = .ok partition ∧ partition.Consistent ∧
      partition.vertexCount = count ∧
      (partition.counts.toList.map UInt64.toNat).sum = count.toNat ∧
      (∀ lower upper : Fin ranks, lower ≤ upper →
        partition.countOf upper ≤ partition.countOf lower ∧
          (partition.countOf lower).toNat ≤ (partition.countOf upper).toNat + 1) ∧
      ofCounts partition.counts = .ok partition := by
  constructor
  · intro counts fits
    obtain ⟨partition, shared⟩ := exists_ofCounts occupied fits
    have counted : partition.counts = counts := by
      apply Vector.ext
      intro rank inside
      simpa [Partition.counts, ← UInt64.toNat_inj] using countOf_ofCounts shared ⟨rank, inside⟩
    have total : partition.vertexCount.toNat = (counts.toList.map UInt64.toNat).sum := by
      rw [← sum_counts, counted]
    exact ⟨partition, shared, partition.consistent, counted, total, ofCounts_counts occupied partition⟩
  · intro count
    obtain ⟨partition, shared, whole⟩ := @exists_even ranks count occupied
    have total : (partition.counts.toList.map UInt64.toNat).sum = count.toNat := by
      rw [sum_counts, whole]
    refine ⟨partition, shared, partition.consistent, whole, total, ?_, ofCounts_counts occupied partition⟩
    intro lower upper below
    -- Of two ranks the later one takes a surplus id only if the earlier one does.
    have first := countOf_even shared lower
    have later := countOf_even shared upper
    rw [UInt64.le_iff_toNat_le]
    split at first <;> split at later <;> omega

/-- Five ids over ranks of which some are empty, and seven shared out evenly. -/
theorem sharing_exact_sample :
    (5 ≠ 0 ∧ (#v[(0 : UInt64), 2, 0, 0, 3].toList.map UInt64.toNat).sum < UInt64.size) ∧
    (∃ partition, ofCounts #v[0, 2, 0, 0, 3] = .ok partition ∧ partition.Consistent ∧
      partition.vertexCount.toNat = 5) ∧
    ∃ partition : Partition 5, even 7 5 = .ok partition ∧ partition.Consistent ∧
      partition.countOf 4 ≤ partition.countOf 1 ∧
      (partition.countOf 1).toNat ≤ (partition.countOf 4).toNat + 1 := by
  have exact := @sharing_exact 5 (by decide)
  have fits : (#v[(0 : UInt64), 2, 0, 0, 3].toList.map UInt64.toNat).sum < UInt64.size := by decide
  -- Both ways to share out ids are put to use.
  obtain ⟨counted, shared, consistent, _, total, _⟩ := exact.1 #v[0, 2, 0, 0, 3] fits
  obtain ⟨evenly, shared', consistent', _, _, close, _⟩ := exact.2 7
  exact ⟨⟨by decide, fits⟩, ⟨counted, shared, consistent, total⟩, evenly, shared', consistent',
    close 1 4 (by decide)⟩

end DistGraph.Partition
