import DistGraph.Proofs.Adjacency.Build
import DistGraph.Proofs.Routing.InStep

/-! Ranks stay in step while they store the records that they own. -/

namespace DistGraph.View

variable {size : Nat} {members : Fin size → Member size} {premises : Premises members}
  {facts : Fin size → Prop} {records : Fin size → List EdgeRecord} {partition : Partition size}
  {transposed : Bool} {budget : Option UInt64}

/-- Ranks may count the records of all ranks. -/
theorem total_leads (counts : Fin size → UInt64)
    (fits : premises.countable → ((List.ofFn counts).map UInt64.toNat).sum < UInt64.size) :
    Leads premises.blame facts
      (fun rank => (Communicator.allReduce .sum (counts rank)).mapError Failure.ofGraph)
      (premises.blame.Pending (fun _ => (∀ rank, facts rank) ∧
          ((List.ofFn counts).map UInt64.toNat).sum < UInt64.size)
        fun _ => UInt64.ofNat ((List.ofFn counts).map UInt64.toNat).sum) := by
  -- On every rank the numbers are folded from its own on, to the same sum.
  have folds : ∀ (rank : Fin size) value,
      Communicator.folded Communicator.Reduction.sum.combine (counts rank) (List.ofFn counts) = .ok value ↔
        ((List.ofFn counts).map UInt64.toNat).sum = value.toNat := by
    intro rank value
    cases listed : List.ofFn counts with
    | nil => exact absurd (List.length_ofFn (f := counts)) (by rw [listed]; exact (Nat.ne_of_gt rank.pos).symm)
    | cons first others =>
      rw [List.map_cons, List.sum_cons]
      exact Word.foldlM_add_eq_ok_iff
  refine (Communicator.fold_leads Wire.word Communicator.Reduction.sum.combine counts _
    (fun rank value made => ?_) fun countable _ rank =>
      ⟨UInt64.ofNat ((List.ofFn counts).map UInt64.toNat).sum, ?_⟩).mono
    (fun _ fact => fact) fun _ held => held.mono fun rank fact => ?_
  · rw [(folds rank value).mp made, UInt64.ofNat_toNat]
  · exact (folds rank _).mpr (UInt64.toNat_ofNat_of_lt' (fits countable)).symm
  · refine ⟨fact.1, ?_⟩
    rw [(folds rank _).mp fact.2]
    exact UInt64.toNat_lt_size _

section Stored

variable (lawful : ∀ rank, (members rank).sorter.Lawful)
  (own : ∀ rank, ∀ record ∈ records rank,
    (partition.spanOf rank).contains (record.major transposed) = true)
  (stores : premises.roomy → ∀ rank,
    (records rank).length * HalfEdge.cellBytes ≤ Memory.largestBuffer)

include lawful own stores

/-- Ranks may make segments of the records that they own. -/
theorem buildAll_leads : ∃ segments : Fin size → List Segment, Leads premises.blame facts
    (fun rank => Program.ofExcept (Segment.buildAll (members rank) budget transposed
      (partition.spanOf rank) ((members rank).sorter.records transposed (records rank))))
    (premises.blame.Pending (fun rank => facts rank ∧ Segment.buildAll (members rank) budget transposed
      (partition.spanOf rank) ((members rank).sorter.records transposed (records rank)) =
        .ok (segments rank)) segments) := by
  -- Own sorted records can only lack a buffer, for which the premises name a rank to blame.
  refine Leads.exists_ofExcept fun rank error _ failing => ?_
  have same := (lawful rank).records_perm transposed (records rank)
  obtain ⟨sorted, inside⟩ := sorted_own lawful own rank
  obtain ⟨length, few, failed⟩ := exists_of_buildAll_eq_error (members rank) budget
    (partition.spanOf_ordered rank) sorted inside failing
  rw [same.length_eq] at few
  refine premises.owns_makeRoom (fun roomy => ?_) failed
  exact Member.makeRoom_of_unlimited (premises.unlimited roomy rank)
    (Nat.le_trans (Nat.mul_le_mul_right _ few) (stores roomy rank))

/-- Ranks may store the records that they own. -/
theorem build_leads (ranked : ∀ rank, (members rank).rank = rank)
    (fits : premises.countable → (everything records).length < UInt64.size) :
    ∃ (views : Fin size → View size) (kept : Fin size → Prop),
      ((∀ rank, kept rank) → Built members records partition transposed budget views) ∧
      Leads premises.blame facts
        (fun rank => build (members rank) (records rank) partition transposed budget)
        (premises.blame.Pending (fun rank => (∀ rank, facts rank) ∧ kept rank) views) := by
  let counts : Fin size → UInt64 := fun rank =>
    UInt64.ofNat ((members rank).sorter.records transposed (records rank)).length
  have total : premises.countable → ((List.ofFn counts).map UInt64.toNat).sum < UInt64.size := by
    intro countable
    simp only [counts, ((lawful _).records_perm _ _).length_eq]
    rw [sum_counts_eq (fits countable)]
    exact fits countable
  -- All ranks know that the edges can be counted before any of them stores its own.
  obtain ⟨segments, stored⟩ : ∃ segments : Fin size → List Segment, Leads premises.blame
      (fun _ => (∀ rank, facts rank) ∧ ((List.ofFn counts).map UInt64.toNat).sum < UInt64.size) _ _ :=
    buildAll_leads lawful own stores
  let kept : Fin size → Prop := fun rank =>
    ((List.ofFn counts).map UInt64.toNat).sum < UInt64.size ∧
      Segment.buildAll (members rank) budget transposed (partition.spanOf rank)
        ((members rank).sorter.records transposed (records rank)) = .ok (segments rank)
  let views : Fin size → View size := fun rank => {
    rank, partition, transposed, segments := (segments rank).toArray, segmentBudget := budget
    globalEdgeCount := UInt64.ofNat ((List.ofFn counts).map UInt64.toNat).sum }
  refine ⟨views, kept, fun all => ⟨own, _, segments, fun rank first others listed => ?_,
    fun rank => (all rank).2, rfl⟩, ?_⟩
  · have small := (all rank).1
    have counted : (first :: others).map UInt64.toNat = (List.ofFn counts).map UInt64.toNat := by
      rw [← listed]
    apply Word.foldlM_add_eq_ok_iff.mpr
    rw [UInt64.toNat_ofNat_of_lt' small, ← counted, List.map_cons, List.sum_cons]
  · -- No record is a stray one, so that the ranks get to count their edges.
    have passes : ∀ rank, refuseStray (partition.spanOf rank) transposed (records rank) = .ok () :=
      fun rank => refuseStray_eq_ok_iff.mpr (own rank)
    simp only [build_eq (ranked _), passes]
    refine (Leads.pure _).after ((total_leads counts total).after
      ((stored.mono (fun _ fact => fact) fun _ held => held.mono fun rank fact => ?_).after (Leads.pure _)))
    exact ⟨fact.1.1, fact.1.2, fact.2⟩

end Stored

end DistGraph.View
