import DistGraph.Proofs.Edge.Parallel
import DistGraph.Proofs.Edge.Reversed
import DistGraph.Proofs.Edge.Reverses

/-! Cleaned up records are the same in whatever order they were held, and cleaning them up again leaves them
alone. -/

namespace DistGraph

namespace MergePolicy

/-- A record that parallel ones have been merged into is merged with no others into itself. -/
theorem merge_merge (policy : MergePolicy) (first : EdgeRecord) (later : List EdgeRecord) :
    policy.merge (policy.merge first later) [] = policy.merge first later := by
  by_cases keeps : policy = .keepFirst
  · simp [merge, keeps]
  · simp only [merge, if_neg keeps]
    generalize policy.combineAll ((first :: later).filterMap EdgeRecord.weight?) = weight
    -- Its weight is the only one, so it is replaced by itself, and so is the lack of one.
    have alone : policy.combineAll ([first.withWeight weight].filterMap EdgeRecord.weight?) = weight := by
      cases weight <;> simp [combineAll]
    rw [alone, EdgeRecord.withWeight_withWeight]

/-- Merging a turned record without any parallel one turns the merged one around. -/
theorem merge_reversed (policy : MergePolicy) (record : EdgeRecord) :
    policy.merge record.reversed [] = (policy.merge record []).reversed := by
  by_cases keeps : policy = .keepFirst
  · simp [merge, keeps]
  · simp only [merge, if_neg keeps]
    -- Turning a record around leaves its weight as it is.
    show record.reversed.withWeight (policy.combineAll ([record].filterMap EdgeRecord.weight?)) = _
    cases policy.combineAll ([record].filterMap EdgeRecord.weight?) <;> rfl

end MergePolicy

namespace EdgeRecord

variable {transposed : Bool} {records : List EdgeRecord}

/-- Records in strictly rising order have different keys. -/
theorem keyed_of_rising (rising : records.Pairwise fun left right =>
    left.keyNumber transposed < right.keyNumber transposed) : Keyed transposed records := by
  refine List.pairwise_map.mpr (rising.imp fun {left right} before same => ?_)
  rw [keyNumber_inj.mpr same] at before
  exact Nat.lt_irrefl _ before

/-- A turned record has the key that it had in the other orientation. -/
theorem sortKey_reversed (record : EdgeRecord) :
    record.reversed.sortKey transposed = record.sortKey (!transposed) := by
  cases transposed <;> rfl

end EdgeRecord

namespace Cleanup

open EdgeRecord (Keyed)

section Sorted

variable {records : List EdgeRecord}
  (sorted : records.Pairwise fun left right => left.pair ≤ right.pair)

include sorted

/-- Reverses that were missing have different keys from all records and from each other. -/
theorem keyed_withReverses (keyed : Keyed false records) : Keyed false (withReverses records) := by
  unfold Keyed withReverses
  rw [List.map_append]
  refine List.Nodup.append keyed ?_ ?_
  · -- Turned around, different records have different keys as well.
    rw [missingReverses, List.map_map]
    simp only [Function.comp_def, EdgeRecord.sortKey_reversed]
    exact (keyed.turned true).sublist List.filter_sublist
  · -- A reverse is added only if no record has its endpoints.
    intro key own added
    obtain ⟨record, held, rfl⟩ := List.mem_map.mp own
    obtain ⟨reverse, missing, same⟩ := List.mem_map.mp added
    have ends : record.ends = reverse.ends :=
      Prod.ext (congrArg SortKey.major same).symm (congrArg SortKey.minor same).symm
    exact (ends_of_mem_missingReverses sorted missing).2 (ends ▸ List.mem_map_of_mem held)

/-- Endpoints that were different stay so when reverses are added. -/
theorem ends_nodup_withReverses (once : (records.map EdgeRecord.ends).Nodup) :
    ((withReverses records).map EdgeRecord.ends).Nodup := by
  rw [withReverses, List.map_append]
  -- The reverses differ as their edges do, and none of them was there.
  refine List.Nodup.append once ?_ ?_
  · have turned : EdgeRecord.ends ∘ EdgeRecord.reversed = Prod.swap ∘ EdgeRecord.ends := rfl
    rw [missingReverses, List.map_map, turned, ← List.map_map]
    exact ((List.filter_sublist.map _).nodup once).map Prod.swap_injective
  · intro ends own added
    obtain ⟨reverse, missing, rfl⟩ := List.mem_map.mp added
    exact (ends_of_mem_missingReverses sorted missing).2 own

end Sorted

/-- Whether nothing is left to be done for records that are cleaned up in some way. -/
structure Tidied (policy : MergePolicy) (dropSelfLoops closeUnderReversal : Bool)
    (records : List EdgeRecord) : Prop where
  /-- They are in order, and no two of them have the same key. -/
  rising : records.Pairwise fun left right => left.keyNumber false < right.keyNumber false
  /-- No self-loop is left to be dropped. -/
  proper : dropSelfLoops = true → ∀ record ∈ records, record.isSelfLoop = false
  /-- No two of them are left to be merged. -/
  once : policy ≠ .keepAll → (records.map EdgeRecord.ends).Nodup
  /-- Each of them is what it is merged into alone. -/
  alone : policy ≠ .keepAll → ∀ record ∈ records, policy.merge record [] = record
  /-- No reverse is left to be added. -/
  closed : closeUnderReversal = true → Symmetric (records.map EdgeRecord.ends)

section Passes

variable {sorter : Sorter} (lawful : sorter.Lawful) {policy : MergePolicy}
  {dropSelfLoops closeUnderReversal : Bool} {records : List EdgeRecord}

/-- Cleaned up records are in the order of their endpoints. -/
theorem Tidied.pair_sorted (tidied : Tidied policy dropSelfLoops closeUnderReversal records) :
    records.Pairwise fun left right => left.pair ≤ right.pair :=
  Cleanup.pair_sorted (tidied.rising.imp Nat.le_of_lt)

/-- Cleaned up records have different keys. -/
theorem Tidied.keyed (tidied : Tidied policy dropSelfLoops closeUnderReversal records) :
    Keyed false records :=
  EdgeRecord.keyed_of_rising tidied.rising

include lawful

/-- Once parallel records are merged, at most reverses are left to be added. -/
theorem mergeParallel_tidied (keyed : Keyed false records)
    (proper : dropSelfLoops = true → ∀ record ∈ records, record.isSelfLoop = false) :
    Tidied policy dropSelfLoops false (mergeParallel policy (sorter.records false records)) := by
  refine ⟨?_, fun drops => ?_, fun merges => ?_, fun merges record member => ?_,
    fun closes => absurd closes Bool.false_ne_true⟩
  · by_cases merges : policy = .keepAll
    · rw [mergeParallel, if_pos merges]
      exact keys_rise lawful keyed
    · -- Without parallel records, the endpoints decide between any two keys.
      refine (rowNumber_mergeParallel lawful merges false records).imp fun {left right} less => ?_
      have := left.originNumber_lt
      rw [EdgeRecord.keyNumber_eq, EdgeRecord.keyNumber_eq]
      omega
  · -- What is merged has the endpoints of a record that was kept.
    show ∀ record ∈ tidy sorter policy false false records, _
    refine forall_tidy lawful (proper drops) (fun first later apart => ?_)
      fun closes => absurd closes Bool.false_ne_true
    obtain ⟨src, dst⟩ := EdgeRecord.ends_merge policy first later
    rwa [EdgeRecord.isSelfLoop, src, dst]
  · refine (map_ends_mergeParallel_perm lawful policy false).nodup_iff.mpr ?_
    rw [mergedEnds, if_neg merges]
    exact List.nodup_dedup _
  · rw [mergeParallel, if_neg merges] at member
    obtain ⟨run, -, rfl⟩ := List.mem_map.mp member
    exact policy.merge_merge run.1 run.2

/-- Once reverses are added and put in order as well, nothing is left to be done. -/
theorem Tidied.complete (tidied : Tidied policy dropSelfLoops false records) :
    Tidied policy dropSelfLoops true (sorter.records false (withReverses records)) := by
  -- Being cleaned up is kept by the added reverses first and by sorting after that.
  have sorted := tidied.pair_sorted
  have same := lawful.records_perm false (withReverses records)
  have ends := same.map EdgeRecord.ends
  refine ⟨keys_rise lawful (keyed_withReverses sorted tidied.keyed), fun drops record member => ?_,
    fun merges => ?_, fun merges record member => ?_, fun _ => ?_⟩
  · refine forall_withReverses (tidied.proper drops) (fun other apart => ?_) record (same.subset member)
    rwa [EdgeRecord.isSelfLoop_reversed]
  · exact ends.nodup_iff.mpr (ends_nodup_withReverses sorted (tidied.once merges))
  · refine forall_withReverses (tidied.alone merges) (fun other own => ?_) record (same.subset member)
    rw [policy.merge_reversed, own]
  · rw [map_ends_withReverses sorted] at ends
    exact (symmetric_completedEnds _).perm ends

/-- Cleaning up leaves nothing to be done. -/
theorem tidy_tidied (keyed : Keyed false records) : Tidied policy dropSelfLoops closeUnderReversal
    (tidy sorter policy dropSelfLoops closeUnderReversal records) := by
  -- Before reverses are added, what merging leaves is cleaned up but for them.
  have merged : Tidied policy dropSelfLoops false (mergeParallel policy (sorter.records false
      (if dropSelfLoops then withoutSelfLoops records else records))) := by
    refine mergeParallel_tidied lawful ?_ fun drops record member => ?_
    · split
      · exact keyed.sublist List.filter_sublist
      · exact keyed
    · rw [if_pos drops] at member
      simpa using (List.mem_filter.mp member).2
  unfold tidy
  cases closeUnderReversal with
  | false => exact merged
  | true => exact merged.complete lawful

/-- Where nothing is left to be done, cleaning up does nothing. -/
theorem Tidied.tidy_eq (tidied : Tidied policy dropSelfLoops closeUnderReversal records) :
    tidy sorter policy dropSelfLoops closeUnderReversal records = records := by
  -- Each step of the clean-up finds that it has been taken already.
  have kept : (if dropSelfLoops then withoutSelfLoops records else records) = records := by
    split
    · refine List.filter_eq_self.mpr fun record member => ?_
      simp [tidied.proper ‹_› record member]
    · rfl
  have ordered : sorter.records false records = records :=
    lawful.records_eq_of_sorted tidied.keyed (.refl _) (tidied.rising.imp Nat.le_of_lt)
  have merged : mergeParallel policy records = records := by
    by_cases merges : policy = .keepAll
    · rw [mergeParallel, if_pos merges]
    · -- Every record is a run of its own.
      have apart : records.Pairwise fun left right => parallel left right = false := by
        refine (List.pairwise_map.mp (tidied.once merges)).imp fun different => ?_
        rwa [Bool.eq_false_iff, ne_eq, parallel_iff_ends]
      rw [mergeParallel, if_neg merges, runs_of_unrelated apart, List.map_map]
      exact (List.map_congr_left (tidied.alone merges)).trans records.map_id
  simp only [tidy, kept, ordered, merged]
  cases closeUnderReversal with
  | false => rfl
  | true =>
    rw [if_pos rfl, withReverses_of_symmetric tidied.pair_sorted (tidied.closed rfl)]
    exact ordered

/-- In whatever order records with different keys are held, and whoever cleans them up, the same are left. -/
theorem tidy_perm {other : Sorter} (otherLawful : other.Lawful) (keyed : Keyed false records)
    {others : List EdgeRecord} (same : others.Perm records) :
    tidy other policy dropSelfLoops closeUnderReversal others =
      tidy sorter policy dropSelfLoops closeUnderReversal records := by
  -- The same records are put in order, and there is only one order of these.
  have sorted : other.records false (if dropSelfLoops then withoutSelfLoops others else others) =
      sorter.records false (if dropSelfLoops then withoutSelfLoops records else records) := by
    split
    · exact (lawful.records_eq otherLawful (keyed.sublist List.filter_sublist) (same.filter _)).symm
    · exact (lawful.records_eq otherLawful keyed same).symm
  have merged : Tidied policy dropSelfLoops false (tidy sorter policy dropSelfLoops false records) :=
    tidy_tidied lawful keyed
  simp only [tidy, sorted]
  cases closeUnderReversal with
  | false => rfl
  | true =>
    exact (lawful.records_eq otherLawful (keyed_withReverses merged.pair_sorted merged.keyed) (.refl _)).symm

end Passes

/-- Records with different keys are cleaned up into a list in strictly rising order of their keys, which is
the same in whatever order they are held and whoever cleans them up, and which stays as it is if it is cleaned
up in the same way again. -/
theorem tidy_canonical {sorter other : Sorter} (lawful : sorter.Lawful) (otherLawful : other.Lawful)
    (policy : MergePolicy) (dropSelfLoops closeUnderReversal : Bool) {records : List EdgeRecord}
    (keyed : EdgeRecord.Keyed false records) :
    (tidy sorter policy dropSelfLoops closeUnderReversal records).Pairwise (fun left right =>
      (left.sortKey false).compare (right.sortKey false) = .lt) ∧
    (∀ others : List EdgeRecord, others.Perm records →
      tidy other policy dropSelfLoops closeUnderReversal others =
        tidy sorter policy dropSelfLoops closeUnderReversal records) ∧
    tidy other policy dropSelfLoops closeUnderReversal
        (tidy sorter policy dropSelfLoops closeUnderReversal records) =
      tidy sorter policy dropSelfLoops closeUnderReversal records := by
  -- What is cleaned up has nothing left to be done, which makes the second time change nothing.
  have tidied : Tidied policy dropSelfLoops closeUnderReversal
      (tidy sorter policy dropSelfLoops closeUnderReversal records) := tidy_tidied lawful keyed
  refine ⟨tidied.rising.imp fun less => ?_, fun others same => ?_, ?_⟩
  · rw [EdgeRecord.compare_sortKey]
    exact Nat.compare_eq_lt.mpr less
  · exact tidy_perm lawful otherLawful keyed same
  · exact tidied.tidy_eq otherLawful

/-- A one-way edge and two parallel ones of which one has a weight are merged and closed under reversal, and a
self-loop is dropped, whichever of them comes first. -/
theorem tidy_canonical_sample :
    let records : List EdgeRecord := [.ofEdge ⟨3, 1, some ⟨9⟩, none, none⟩ 0 2,
      .ofEdge ⟨1, 2, none, none, none⟩ 0 1, .ofEdge ⟨2, 2, none, none, none⟩ 1 0,
      .ofEdge ⟨1, 2, some ⟨7⟩, some 5, none⟩ 0 0]
    let tidied : List EdgeRecord := [.ofEdge ⟨1, 2, some ⟨7⟩, some 5, none⟩ 0 0,
      .ofEdge ⟨1, 3, some ⟨9⟩, none, none⟩ 0 2, .ofEdge ⟨2, 1, some ⟨7⟩, some 5, none⟩ 0 0,
      .ofEdge ⟨3, 1, some ⟨9⟩, none, none⟩ 0 2]
    EdgeRecord.Keyed false records ∧ tidy Sorter.stable .sum true true records = tidied ∧
    tidied.Pairwise (fun left right => (left.sortKey false).compare (right.sortKey false) = .lt) ∧
    tidy Sorter.stable.backwards .sum true true records.reverse = tidied ∧
    tidy Sorter.stable.backwards .sum true true tidied = tidied := by
  intro records tidied
  have keyed : EdgeRecord.Keyed false records := by decide
  have sorted : Sorter.stable.records false (withoutSelfLoops records) =
      [.ofEdge ⟨1, 2, some ⟨7⟩, some 5, none⟩ 0 0, .ofEdge ⟨1, 2, none, none, none⟩ 0 1,
        .ofEdge ⟨3, 1, some ⟨9⟩, none, none⟩ 0 2] :=
    Sorter.stable_lawful.records_eq_of_sorted (by decide) (by decide) (by decide)
  -- Two records are left of the four, and each lacks its reverse.
  have merged : mergeParallel .sum (Sorter.stable.records false (withoutSelfLoops records)) =
      [.ofEdge ⟨1, 2, some ⟨7⟩, some 5, none⟩ 0 0, .ofEdge ⟨3, 1, some ⟨9⟩, none, none⟩ 0 2] := by
    rw [sorted]
    rfl
  have completed : withReverses (mergeParallel .sum (Sorter.stable.records false (withoutSelfLoops records))) =
      [.ofEdge ⟨1, 2, some ⟨7⟩, some 5, none⟩ 0 0, .ofEdge ⟨3, 1, some ⟨9⟩, none, none⟩ 0 2,
        .ofEdge ⟨2, 1, some ⟨7⟩, some 5, none⟩ 0 0, .ofEdge ⟨1, 3, some ⟨9⟩, none, none⟩ 0 2] := by
    rw [merged, withReverses, missingReverses_eq (by decide)]
    rfl
  have evaluated : tidy Sorter.stable .sum true true records = tidied := by
    simp only [tidy, if_true, completed]
    exact Sorter.stable_lawful.records_eq_of_sorted (by decide) (by decide) (by decide)
  obtain ⟨rising, permuted, again⟩ :=
    tidy_canonical Sorter.stable_lawful Sorter.stable_lawful.backwards .sum true true keyed
  rw [evaluated] at rising permuted again
  exact ⟨keyed, evaluated, rising, permuted _ records.reverse_perm, again⟩

end Cleanup

end DistGraph
