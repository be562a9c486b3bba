import DistGraph.Proofs.Edge.Ends
import DistGraph.Proofs.Ties

/-! One record is left of all records with the same endpoints, the same one whatever the orientation. -/

namespace DistGraph

namespace EdgeRecord

/-- Whether a record was handed in before another one, on a lower rank or earlier on the same. -/
def Earlier (left right : EdgeRecord) : Prop :=
  -- Positions are compared on one rank only.
  left.originRank < right.originRank ∨
    left.originRank = right.originRank ∧ left.originSeq < right.originSeq

/-- Records are compared by their places of origin. -/
theorem earlier_iff {left right : EdgeRecord} :
    left.Earlier right ↔ left.originNumber < right.originNumber := by
  have := left.originSeq.toNat_lt
  have := right.originSeq.toNat_lt
  -- The rank takes the high digits of the number and the sequence number the low ones.
  unfold Earlier originNumber
  rw [UInt32.lt_iff_toNat_lt, UInt64.lt_iff_toNat_lt, ← UInt32.toNat_inj]
  omega

/-- Records with the same key have the same endpoints and were handed in at the same place. -/
theorem keyNumber_eq_iff {transposed : Bool} {left right : EdgeRecord} :
    left.keyNumber transposed = right.keyNumber transposed ↔
      left.ends = right.ends ∧ left.originNumber = right.originNumber := by
  -- The origin takes the low digits of the key and never carries into the rest.
  have := left.originNumber_lt
  have := right.originNumber_lt
  rw [keyNumber_eq, keyNumber_eq, ← @rowNumber_eq_iff transposed]
  omega

/-- Records with different keys in one orientation have different keys in the other one. -/
theorem Keyed.turned {transposed : Bool} {records : List EdgeRecord} (keyed : Keyed transposed records)
    (other : Bool) : Keyed other records := by
  -- Neither endpoints nor places of origin depend on the orientation.
  refine List.pairwise_map.mpr ((List.pairwise_map.mp keyed).imp fun different same => different ?_)
  rw [← keyNumber_inj, keyNumber_eq_iff] at same ⊢
  exact same

end EdgeRecord

/-- Whether a record is what a policy makes of parallel records that are listed as they were handed in. -/
structure MergePolicy.StandsFor (policy : MergePolicy) (record first : EdgeRecord)
    (later : List EdgeRecord) : Prop where
  /-- Apart from its weight it is the first one. -/
  rest : record.withWeight none = first.withWeight none
  /-- If the first one is kept, it is so with its weight. -/
  kept : policy = .keepFirst → record = first
  /-- Otherwise the weights that there are have been combined, from the first one on. -/
  weighs : policy ≠ .keepFirst → ∀ weight weights,
    (first :: later).filterMap EdgeRecord.weight? = weight :: weights →
      record.weight? = some (weights.foldl policy.combine weight)
  /-- It has no weight only if there is none. -/
  weightless : policy ≠ .keepFirst →
    (record.weight? = none ↔ ∀ other ∈ first :: later, other.weight? = none)

namespace EdgeRecord

/-- Setting or clearing the presence bit of the weight leaves no trace of what it was. -/
theorem overwrite_weightFlag (flags : UInt8) :
    ((flags ||| weightFlag) ||| weightFlag = flags ||| weightFlag ∧
      (flags &&& ~~~weightFlag) ||| weightFlag = flags ||| weightFlag) ∧
    (flags ||| weightFlag) &&& ~~~weightFlag = flags &&& ~~~weightFlag ∧
      (flags &&& ~~~weightFlag) &&& ~~~weightFlag = flags &&& ~~~weightFlag := by
  -- Flags are eight bits, so that all of them can be tried.
  have all : ∀ bits : BitVec 8, ((bits ||| 1) ||| 1 = bits ||| 1 ∧ (bits &&& ~~~1) ||| 1 = bits ||| 1) ∧
      (bits ||| 1) &&& ~~~1 = bits &&& ~~~1 ∧
      (bits &&& ~~~1) &&& ~~~1 = bits &&& ~~~1 := by decide +kernel
  simp only [← UInt8.toBitVec_inj]
  exact all flags.toBitVec

/-- A weight that is replaced is as good as any other one. -/
@[simp] theorem withWeight_withWeight (record : EdgeRecord) (weight other : Option Weight) :
    (record.withWeight weight).withWeight other = record.withWeight other := by
  obtain ⟨⟨setTwice, setCleared⟩, clearedSet, clearedTwice⟩ := overwrite_weightFlag record.flags
  cases weight <;> cases other <;> simp only [withWeight, setTwice, setCleared, clearedSet, clearedTwice]

/-- A record has the weight that it was given last. -/
@[simp] theorem weight?_withWeight (record : EdgeRecord) (weight : Option Weight) :
    (record.withWeight weight).weight? = weight :=
  congrArg Edge.weight (toEdge_withWeight record weight)

end EdgeRecord

/-- Merging makes the record that stands for all. -/
theorem MergePolicy.merge_standsFor (policy : MergePolicy) (first : EdgeRecord) (later : List EdgeRecord) :
    policy.StandsFor (policy.merge first later) first later := by
  unfold merge
  split
  · rename_i keeps
    exact ⟨rfl, fun _ => rfl, fun merges => absurd keeps merges, fun merges => absurd keeps merges⟩
  · rename_i merges
    refine ⟨EdgeRecord.withWeight_withWeight _ _ none, fun keeps => absurd keeps merges,
      fun _ weight weights present => ?_, fun _ => ?_⟩
    · rw [EdgeRecord.weight?_withWeight, present]
      rfl
    · -- Weights that are combined are never lost altogether.
      rw [EdgeRecord.weight?_withWeight, ← List.filterMap_eq_nil_iff]
      cases (first :: later).filterMap EdgeRecord.weight? with
      | nil => exact iff_of_true rfl rfl
      | cons weight weights => exact iff_of_false nofun nofun

namespace Cleanup

/-- All records with the same endpoints among some, listed as they were handed in. -/
structure Group (records : List EdgeRecord) (first : EdgeRecord) (later : List EdgeRecord) : Prop where
  /-- They are the records with these endpoints. -/
  whole : (first :: later).Perm (records.filter (parallel first))
  /-- Each of them was handed in before the next ones. -/
  ordered : (first :: later).Pairwise EdgeRecord.Earlier

/-- Records with the same endpoints are parallel to the same records. -/
theorem parallel_congr {left right : EdgeRecord} (same : left.ends = right.ends) :
    parallel left = parallel right := by
  funext other
  rw [Bool.eq_iff_iff, parallel_iff_ends, parallel_iff_ends, same]

/-- There is only one group of records with given endpoints. -/
theorem Group.unique {records : List EdgeRecord} {first other : EdgeRecord}
    {later others : List EdgeRecord} (group : Group records first later)
    (otherGroup : Group records other others) (same : first.ends = other.ends) :
    first = other ∧ later = others := by
  have permuted : (first :: later).Perm (other :: others) :=
    group.whole.trans (parallel_congr same ▸ otherGroup.whole.symm)
  refine List.cons.inj (List.Perm.eq_of_pairwise ?_ group.ordered otherGroup.ordered permuted)
  -- No record was handed in both before another one and after it.
  intro left right _ _ before after
  rw [EdgeRecord.earlier_iff] at before after
  exact absurd after (Nat.lt_asymm before)

section Keyed

variable {sorter : Sorter} {records : List EdgeRecord} {transposed : Bool} (lawful : sorter.Lawful)
  (keyed : EdgeRecord.Keyed transposed records)

include lawful keyed

/-- Sorting brings records with different keys into strictly rising order. -/
theorem keys_rise : (sorter.records transposed records).Pairwise fun left right =>
    left.keyNumber transposed < right.keyNumber transposed := by
  have different := List.pairwise_map.mp (keyed.perm (lawful.records_perm transposed records).symm)
  refine ((lawful.keys_ascend transposed records).and different).imp fun ⟨ascends, differs⟩ => ?_
  exact Nat.lt_of_le_of_ne ascends (mt EdgeRecord.keyNumber_inj.mp differs)

/-- The runs of sorted records with different keys are groups. -/
theorem group_of_run {run : EdgeRecord × List EdgeRecord}
    (cut : run ∈ runs parallel (sorter.records transposed records)) : Group records run.1 run.2 := by
  have whole := (runs_records lawful transposed records).whole run cut
  have same : ∀ record ∈ run.1 :: run.2, record.ends = run.1.ends := by
    intro record member
    rw [whole] at member
    exact EdgeRecord.rowNumber_eq_iff.mp (of_decide_eq_true (List.mem_filter.mp member).2)
  refine ⟨?_, ?_⟩
  · rw [whole]
    refine ((lawful.records_perm transposed records).filter _).trans (List.Perm.of_eq ?_)
    refine List.filter_congr fun record _ => ?_
    rw [Bool.eq_iff_iff, decide_eq_true_eq, parallel_iff_ends, EdgeRecord.rowNumber_eq_iff, eq_comm]
  · have rise : (run.1 :: run.2).Pairwise fun left right =>
        left.keyNumber transposed < right.keyNumber transposed := by
      rw [whole]
      exact (keys_rise lawful keyed).filter _
    refine rise.imp_of_mem fun {left right} leftHeld rightHeld before => ?_
    -- Between the same endpoints keys differ in the place of origin alone.
    have rows : left.rowNumber transposed = right.rowNumber transposed :=
      EdgeRecord.rowNumber_eq_iff.mpr ((same left leftHeld).trans (same right rightHeld).symm)
    rw [EdgeRecord.keyNumber_eq, EdgeRecord.keyNumber_eq, rows] at before
    rw [EdgeRecord.earlier_iff]
    omega

/-- What is left when records are merged stands for the groups of records with the same endpoints. -/
theorem mem_mergeParallel_iff {policy : MergePolicy} (merges : policy ≠ .keepAll) {record : EdgeRecord} :
    record ∈ mergeParallel policy (sorter.records transposed records) ↔
      ∃ first later, Group records first later ∧ policy.merge first later = record := by
  rw [mergeParallel, if_neg merges, List.mem_map]
  constructor
  · rintro ⟨run, cut, made⟩
    exact ⟨run.1, run.2, group_of_run lawful keyed cut, made⟩
  · rintro ⟨first, later, group, made⟩
    have held : first ∈ records := List.mem_of_mem_filter (group.whole.subset List.mem_cons_self)
    -- The run of the first record is its group.
    obtain ⟨run, cut, inside⟩ := exists_run_of_mem parallel
      ((lawful.records_perm transposed records).symm.subset held)
    have runGroup := group_of_run lawful keyed cut
    have same := (parallel_iff_ends _ _).mp (List.mem_filter.mp (runGroup.whole.subset inside)).2
    obtain ⟨firstSame, laterSame⟩ := group.unique runGroup same.symm
    exact ⟨run, cut, firstSame ▸ laterSame ▸ made⟩

end Keyed

/-- Whether records are what is left of others when a policy merges those with the same endpoints. -/
structure Merged (policy : MergePolicy) (transposed : Bool) (records merged : List EdgeRecord) : Prop where
  /-- They are in order. -/
  sorted : merged.Pairwise fun left right => EdgeRecord.sortsBefore transposed left right = true
  /-- No two of them have the same endpoints. -/
  once : (merged.map EdgeRecord.ends).Nodup
  /-- They have the endpoints that there were, and no others. -/
  complete : ∀ ends, ends ∈ merged.map EdgeRecord.ends ↔ ends ∈ records.map EdgeRecord.ends
  /-- Each of them stands for all records that had its endpoints, as they were handed in. -/
  stands : ∀ record ∈ merged, ∃ first later, Group records first later ∧
    first.ends = record.ends ∧ policy.StandsFor record first later

/-- Merged records come row by row, without any two in the same place. -/
theorem rowNumber_mergeParallel {sorter : Sorter} (lawful : sorter.Lawful) {policy : MergePolicy}
    (merges : policy ≠ .keepAll) (transposed : Bool) (records : List EdgeRecord) :
    (mergeParallel policy (sorter.records transposed records)).Pairwise
      fun left right => left.rowNumber transposed < right.rowNumber transposed := by
  -- A merged record stays in the place of its run, and runs come place by place.
  have rows : ∀ run : EdgeRecord × List EdgeRecord,
      (policy.merge run.1 run.2).rowNumber transposed = run.1.rowNumber transposed := fun run =>
    EdgeRecord.rowNumber_eq_iff.mpr (ends_merge policy run.1 run.2)
  rw [mergeParallel, if_neg merges]
  refine List.pairwise_map.mpr ((runs_records lawful transposed records).rising.imp fun less => ?_)
  rw [rows, rows]
  exact less

/-- Parallel records among sorted ones with different keys are merged into one each, in either orientation,
and in both of them into the same ones. -/
theorem mergeParallel_merged {sorter : Sorter} (lawful : sorter.Lawful) {policy : MergePolicy}
    (merges : policy ≠ .keepAll) {records : List EdgeRecord} {orientation : Bool}
    (keyed : EdgeRecord.Keyed orientation records) :
    (∀ transposed, Merged policy transposed records
      (mergeParallel policy (sorter.records transposed records))) ∧
    (mergeParallel policy (sorter.records false records)).Perm
      (mergeParallel policy (sorter.records true records)) := by
  have member := fun transposed {record : EdgeRecord} => @mem_mergeParallel_iff sorter records transposed
    lawful (keyed.turned transposed) policy merges record
  -- The endpoints that are left are those that there were, once each.
  have ends : ∀ transposed, ((mergeParallel policy (sorter.records transposed records)).map
      EdgeRecord.ends).Perm (records.map EdgeRecord.ends).dedup := by
    intro transposed
    have permuted := @map_ends_mergeParallel_perm sorter records lawful policy transposed
    rwa [mergedEnds, if_neg merges] at permuted
  have once := fun transposed => (ends transposed).nodup_iff.mpr (List.nodup_dedup _)
  constructor
  · intro transposed
    refine ⟨?_, once transposed, fun pair => (ends transposed).mem_iff.trans List.mem_dedup, ?_⟩
    · refine (rowNumber_mergeParallel lawful merges transposed records).imp fun {left right} less => ?_
      have := left.originNumber_lt
      rw [EdgeRecord.sortsBefore_iff, EdgeRecord.keyNumber_eq, EdgeRecord.keyNumber_eq]
      omega
    · -- A merged record stands for its group, in the order in which the group was handed in.
      intro record held
      obtain ⟨first, later, group, rfl⟩ := (member transposed).mp held
      exact ⟨first, later, group, (ends_merge policy first later).symm,
        policy.merge_standsFor first later⟩
  · -- Groups are the same whichever way the records are sorted.
    refine (List.perm_ext_iff_of_nodup (once false).of_map (once true).of_map).mpr fun record => ?_
    rw [member, member]

/-- Three parallel records and a reverse are merged into two, of which one has the only weight there is
and everything else from the record that was handed in first. -/
theorem mergeParallel_merged_sample :
    let records : List EdgeRecord := [.ofEdge ⟨1, 2, some ⟨7⟩, some 5, none⟩ 1 0,
      .ofEdge ⟨2, 1, none, none, none⟩ 0 1, .ofEdge ⟨1, 2, none, none, none⟩ 1 1,
      .ofEdge ⟨1, 2, none, some 6, some 3⟩ 0 0]
    EdgeRecord.Keyed true records ∧
    mergeParallel .sum (Sorter.stable.records true records) =
      [.ofEdge ⟨2, 1, none, none, none⟩ 0 1, .ofEdge ⟨1, 2, some ⟨7⟩, some 6, some 3⟩ 0 0] ∧
    (mergeParallel .sum (Sorter.stable.records false records)).Perm
      [.ofEdge ⟨2, 1, none, none, none⟩ 0 1, .ofEdge ⟨1, 2, some ⟨7⟩, some 6, some 3⟩ 0 0] := by
  intro records
  have keyed : EdgeRecord.Keyed true records := by decide
  -- The transposed order puts the reverse first, as it is what leads to the lesser endpoint.
  have sorted : Sorter.stable.records true records = [.ofEdge ⟨2, 1, none, none, none⟩ 0 1,
      .ofEdge ⟨1, 2, none, some 6, some 3⟩ 0 0, .ofEdge ⟨1, 2, some ⟨7⟩, some 5, none⟩ 1 0,
      .ofEdge ⟨1, 2, none, none, none⟩ 1 1] :=
    Sorter.stable_lawful.records_eq_of_sorted keyed (by decide) (by decide)
  have evaluated : mergeParallel .sum (Sorter.stable.records true records) =
      [.ofEdge ⟨2, 1, none, none, none⟩ 0 1, .ofEdge ⟨1, 2, some ⟨7⟩, some 6, some 3⟩ 0 0] := by
    rw [sorted]
    rfl
  have merges : MergePolicy.sum ≠ .keepAll := by decide
  obtain ⟨-, same⟩ := mergeParallel_merged Sorter.stable_lawful merges keyed
  exact ⟨keyed, evaluated, evaluated ▸ same⟩

end Cleanup

end DistGraph
