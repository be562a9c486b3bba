import DistGraph.Partition
import DistGraph.Proofs.Search
import DistGraph.Proofs.Word

/-! Ownership under a partition: every id below the vertex count lies in the run of its owner alone. -/

namespace DistGraph

/-- A span contains the ids from its start up to its end. -/
theorem Span.contains_iff {span : Span} {vertex : VertexId} :
    span.contains vertex = true ↔
      span.start.toNat ≤ vertex.toNat ∧ vertex.toNat < span.stop.toNat := by
  simp [Span.contains, UInt64.le_iff_toNat_le, UInt64.lt_iff_toNat_lt]

namespace Partition

variable {ranks : Nat}

/-- A boundary as a number. -/
def boundary (partition : Partition ranks) (index : Nat) (inside : index ≤ ranks) : Nat :=
  -- There is one boundary more than there are ranks.
  have length := partition.length_boundaries
  (partition.boundaries[index]).toNat

/-- Later boundaries are no lower. -/
theorem boundary_mono (partition : Partition ranks) (lower upper : Nat) (below : lower ≤ upper)
    (inside : upper ≤ ranks) :
    partition.boundary lower (by omega) ≤ partition.boundary upper inside := by
  have length := partition.length_boundaries
  -- A boundary is compared with a later one, or with itself.
  rcases Nat.lt_or_eq_of_le below with less | same
  · have ordered := List.pairwise_iff_getElem.mp partition.ordered lower upper (by omega) (by omega)
      less
    exact UInt64.le_iff_toNat_le.mp ordered
  · subst same
    exact Nat.le_refl _

/-- The first run starts at zero. -/
@[simp] theorem boundary_zero (partition : Partition ranks) : partition.boundary 0 (by omega) = 0 := by
  have length := partition.length_boundaries
  have start := partition.starts_at_zero
  -- There is always a boundary, as there is one more of them than ranks.
  rw [List.head?_eq_getElem?, List.getElem?_eq_getElem (by omega), Option.some.injEq] at start
  simp [boundary, start]

/-- The last boundary is the number of vertices. -/
theorem vertexCount_toNat (partition : Partition ranks) :
    partition.vertexCount.toNat = partition.boundary ranks (by omega) := rfl

/-- The run of a rank lies between its boundary and the next one. -/
theorem contains_spanOf_iff {partition : Partition ranks} {rank : Fin ranks} {vertex : VertexId} :
    (partition.spanOf rank).contains vertex = true ↔
      partition.boundary rank (by omega) ≤ vertex.toNat ∧
        vertex.toNat < partition.boundary (rank + 1) (by omega) := by
  exact Span.contains_iff

/-- The boundaries at or below an id come first. -/
theorem lt_boundariesUpTo_iff (partition : Partition ranks) (vertex : VertexId) (index : Nat)
    (inside : index ≤ ranks) :
    index < partition.boundariesUpTo vertex ↔ partition.boundary index inside ≤ vertex.toNat := by
  have length := partition.length_boundaries
  unfold boundariesUpTo
  rw [Search.lt_partitionPoint_iff _ (by omega), List.getElem?_eq_getElem (by omega)]
  · simp only [decide_eq_true_eq, UInt64.le_iff_toNat_le]
    rfl
  · -- The search finds them as the boundaries ascend.
    intro i j before small passes
    rw [List.getElem?_eq_getElem (by omega)] at passes ⊢
    simp only [decide_eq_true_eq, UInt64.le_iff_toNat_le] at passes ⊢
    exact Nat.le_trans (partition.boundary_mono i j before (by omega)) passes

/-- The owner of an id is the rank whose run holds it. -/
theorem owner?_eq_some_iff {partition : Partition ranks} {vertex : VertexId} {rank : Fin ranks} :
    partition.owner? vertex = some rank ↔ (partition.spanOf rank).contains vertex = true := by
  have starts := partition.lt_boundariesUpTo_iff vertex rank (by omega)
  have stops := partition.lt_boundariesUpTo_iff vertex (rank + 1) (by omega)
  have first := partition.lt_boundariesUpTo_iff vertex 0 (by omega)
  have last := partition.boundary_mono (rank + 1) ranks (by omega) (by omega)
  -- The owner is told by how many boundaries lie at or below the vertex.
  rw [boundary_zero] at first
  rw [contains_spanOf_iff]
  unfold owner?
  split
  · rw [Option.some.injEq, Fin.ext_iff]
    dsimp only
    omega
  · rename_i outside
    rw [UInt64.lt_iff_toNat_lt, vertexCount_toNat] at outside
    simp only [reduceCtorEq, false_iff]
    omega

/-- Just the ids below the number of vertices have owners. -/
@[simp] theorem owner?_isSome_iff {partition : Partition ranks} {vertex : VertexId} :
    (partition.owner? vertex).isSome ↔ vertex < partition.vertexCount := by
  unfold owner?
  split <;> simp [*]

/-- What a rank owns is a vertex. -/
theorem lt_vertexCount_of_contains {partition : Partition ranks} {vertex : VertexId} {rank : Fin ranks}
    (owned : (partition.spanOf rank).contains vertex = true) : vertex < partition.vertexCount :=
  owner?_isSome_iff.mp (Option.isSome_iff_exists.mpr ⟨rank, owner?_eq_some_iff.mpr owned⟩)

/-- No vertex has two owners. -/
theorem spanOf_unique {partition : Partition ranks} {vertex : VertexId} {rank other : Fin ranks}
    (owned : (partition.spanOf rank).contains vertex = true)
    (owned' : (partition.spanOf other).contains vertex = true) : rank = other :=
  Option.some.inj ((owner?_eq_some_iff.mpr owned).symm.trans (owner?_eq_some_iff.mpr owned'))

/-- The runs follow rank order. -/
theorem spanOf_stop_le_start (partition : Partition ranks) {lower upper : Fin ranks}
    (below : lower < upper) :
    (partition.spanOf lower).stop.toNat ≤ (partition.spanOf upper).start.toNat := by
  exact partition.boundary_mono (lower + 1) upper (by omega) (by omega)

/-- Runs may be empty, but never end before they start. -/
theorem spanOf_start_le_stop (partition : Partition ranks) (rank : Fin ranks) :
    (partition.spanOf rank).start.toNat ≤ (partition.spanOf rank).stop.toNat := by
  exact partition.boundary_mono rank (rank + 1) (by omega) (by omega)

/-- Runs never end before they start, as their ends compare as words. -/
theorem spanOf_ordered (partition : Partition ranks) (rank : Fin ranks) :
    (partition.spanOf rank).start ≤ (partition.spanOf rank).stop :=
  UInt64.le_iff_toNat_le.mpr (partition.spanOf_start_le_stop rank)

/-- The count of a rank leads from the start of its run to the end. -/
theorem start_add_countOf (partition : Partition ranks) (rank : Fin ranks) :
    (partition.spanOf rank).start.toNat + (partition.countOf rank).toNat =
      (partition.spanOf rank).stop.toNat := by
  -- Nothing wraps where the end is not below the start.
  have difference := UInt64.toNat_sub_of_le _ _ (partition.spanOf_ordered rank)
  have ordered := partition.spanOf_start_le_stop rank
  unfold countOf
  omega

/-- Ids can be shared out evenly over some ranks. -/
theorem exists_even (count : UInt64) (occupied : ranks ≠ 0) :
    ∃ partition, even count ranks = .ok partition ∧ partition.vertexCount = count := by
  -- The shares add up to the whole, the surplus being spread over the first ranks.
  have ends : ranks * (count.toNat / ranks) + min ranks (count.toNat % ranks) = count.toNat := by
    have surplus := Nat.mod_lt count.toNat (Nat.pos_of_ne_zero occupied)
    have whole := Nat.div_add_mod count.toNat ranks
    omega
  unfold even
  rw [if_neg occupied]
  split
  · rename_i refused
    simp [evenStarts_eq_ok] at refused
  · rename_i starts started
    refine ⟨_, rfl, ?_⟩
    rw [evenStarts_eq_ok, Except.ok.injEq] at started
    subst started
    simp only [vertexCount, List.getElem_map, List.getElem_range]
    rw [ends, UInt64.ofNat_toNat]

/-- Ids are shared out by counts if all counts together fit a word. -/
theorem exists_ofCounts {counts : Vector UInt64 ranks} (occupied : ranks ≠ 0)
    (fits : (counts.toList.map UInt64.toNat).sum < UInt64.size) :
    ∃ partition, ofCounts counts = .ok partition := by
  -- The running sum of the counts makes the boundaries.
  obtain ⟨ends, summed⟩ := @Word.exists_totals counts.toList 0 (by simpa using fits)
  unfold ofCounts
  rw [if_neg occupied]
  split
  · rename_i refused
    simp [summed] at refused
  · exact ⟨_, rfl⟩

/-- A run starts after as many ids as the counts before it say. -/
theorem boundary_ofCounts {counts : Vector UInt64 ranks} {partition : Partition ranks}
    (shared : ofCounts counts = .ok partition) (index : Nat) (inside : index ≤ ranks) :
    partition.boundary index inside = ((counts.toList.take index).map UInt64.toNat).sum := by
  unfold ofCounts at shared
  split at shared
  · simp at shared
  · split at shared
    · simp at shared
    · rename_i ends summed
      cases shared
      have length := Word.totals_length summed
      rw [Vector.length_toList] at length
      unfold boundary
      -- The boundary at zero is no total, and the others are those of as many counts.
      cases index with
      | zero => simp
      | succ index =>
        simp only [List.getElem_cons_succ]
        rw [Word.getElem_totals summed (by omega)]
        simp

/-- A rank owns as many ids as its count says. -/
theorem countOf_ofCounts {counts : Vector UInt64 ranks} {partition : Partition ranks}
    (shared : ofCounts counts = .ok partition) (rank : Fin ranks) :
    (partition.countOf rank).toNat = counts[rank].toNat := by
  -- The boundaries are running sums, of which two in a row differ by a count.
  have run : partition.boundary rank (by omega) + (partition.countOf rank).toNat =
      partition.boundary (rank + 1) (by omega) := partition.start_add_countOf rank
  have inside : rank.val < counts.toList.length := by simp
  rw [boundary_ofCounts shared, boundary_ofCounts shared, List.take_add_one,
    List.getElem?_eq_getElem inside] at run
  simpa using run

/-- The run of a rank that is alone has all ids. -/
@[simp] theorem spanOf_single (single : Partition 1) : single.spanOf 0 = ⟨0, single.vertexCount⟩ := by
  have start : (single.spanOf 0).start = 0 := UInt64.toNat_inj.mp single.boundary_zero
  rw [← start]
  rfl

end Partition

end DistGraph
