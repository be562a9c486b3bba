import DistGraph.Proofs.Edge.Origin
import DistGraph.Proofs.Runs
import DistGraph.Proofs.Search

/-! What cleaning up makes of the records of a rank. -/

namespace DistGraph

variable {size : Nat} {edges : Fin size → List Edge}

/-- The endpoints of a record as one number. -/
def EdgeRecord.pair (record : EdgeRecord) : Nat :=
  pairNumber record.src record.dst

/-- In the given direction endpoints come first, and the place of origin last. -/
theorem EdgeRecord.keyNumber_false (record : EdgeRecord) :
    record.keyNumber false = record.pair * 2 ^ 96 + record.originNumber := rfl

/-- Records have the endpoints of the edges that they stand for. -/
theorem EdgeRecord.pair_eq_iff (edges : Fin size → List Edge) {left right : EdgeRecord} :
    left.pair = right.pair ↔ (left.placed edges).ends = (right.placed edges).ends := by
  rw [EdgeRecord.pair, EdgeRecord.pair, pairNumber_inj, EdgeRecord.ends_placed,
    EdgeRecord.ends_placed, Prod.mk.injEq]

namespace Cleanup

/-- Parallel records have the same endpoints. -/
theorem parallel_iff (left right : EdgeRecord) : parallel left right = true ↔ left.pair = right.pair := by
  simp [parallel, EdgeRecord.pair, pairNumber_inj]

/-- The endpoints of sorted records ascend. -/
theorem pair_sorted {records : List EdgeRecord}
    (sorted : records.Pairwise fun left right => left.keyNumber false ≤ right.keyNumber false) :
    records.Pairwise fun left right => left.pair ≤ right.pair := by
  -- The place of origin is too small to make up for lower endpoints.
  refine sorted.imp ?_
  intro left right before
  have := left.originNumber_lt
  have := right.originNumber_lt
  rw [EdgeRecord.keyNumber_false, EdgeRecord.keyNumber_false] at before
  omega

section Merging

variable {sorter : Sorter} {held : List EdgeRecord}

/-- Sorting leaves parallel records in the order in which they were handed in. -/
theorem filter_sorted (lawful : sorter.Lawful)
    (ordered : held.Pairwise fun left right => left.originNumber < right.originNumber) (pair : Nat) :
    (sorter.records false held).filter (fun record => record.pair = pair) =
      held.filter fun record => record.pair = pair := by
  have distinct : (held.map EdgeRecord.originNumber).Nodup :=
    List.pairwise_map.mpr (ordered.imp Nat.ne_of_lt)
  -- Between the same endpoints, sorting by key is sorting by place of origin.
  have arranged : ((sorter.records false held).filter fun record => record.pair = pair).Pairwise
      fun left right => left.originNumber ≤ right.originNumber := by
    refine List.Pairwise.imp_of_mem ?_ ((lawful.keys_ascend false held).filter _)
    intro left right leftHeld rightHeld before
    have leftPair : left.pair = pair := by simpa using (List.mem_filter.mp leftHeld).2
    have rightPair : right.pair = pair := by simpa using (List.mem_filter.mp rightHeld).2
    rw [EdgeRecord.keyNumber_false, EdgeRecord.keyNumber_false] at before
    omega
  refine List.Perm.eq_of_pairwise ?_ arranged ((ordered.imp Nat.le_of_lt).filter _)
    ((lawful.records_perm false held).filter _)
  intro left right leftHeld rightHeld before after
  refine List.inj_on_of_nodup_map distinct ?_ ?_ (Nat.le_antisymm before after)
  · exact (lawful.records_perm false held).subset (List.mem_of_mem_filter leftHeld)
  · exact List.mem_of_mem_filter rightHeld

/-- The edges between given endpoints are those of the records between them. -/
theorem filter_placed (record : EdgeRecord) :
    (held.map (EdgeRecord.placed edges)).filter
        (fun other => other.ends = (record.placed edges).ends) =
      (held.filter fun other => other.pair = record.pair).map (EdgeRecord.placed edges) := by
  -- The endpoints are the same for a record and its edge.
  rw [List.filter_map]
  congr 1
  apply List.filter_congr
  intro other _
  simp only [Function.comp_apply, EdgeRecord.pair_eq_iff edges]

/-- Merging sorted records leaves the same edges as merging the edges that they stand for. -/
theorem placed_mergeParallel_perm (lawful : sorter.Lawful) {policy : MergePolicy}
    (merges : policy ≠ .keepAll)
    (ordered : held.Pairwise fun left right => left.originNumber < right.originNumber) :
    ((mergeParallel policy (sorter.records false held)).map (EdgeRecord.placed edges)).Perm
      (Reference.mergeParallel policy (held.map (EdgeRecord.placed edges))) := by
  obtain ⟨whole, rising⟩ := runs_sorted parallel_iff (pair_sorted (lawful.keys_ascend false held))
  -- A run is what stands for all records between its endpoints.
  have groups : ∀ run ∈ runs parallel (sorter.records false held),
      (held.map (EdgeRecord.placed edges)).filter
        (fun other => other.ends = (run.1.placed edges).ends) =
      run.1.placed edges :: run.2.map (EdgeRecord.placed edges) := by
    intro run member
    rw [filter_placed, ← filter_sorted lawful ordered, ← whole run member, List.map_cons]
  have ends : ∀ run : EdgeRecord × List EdgeRecord,
      ((policy.merge run.1 run.2).placed edges).ends = (run.1.placed edges).ends := by
    intro run
    rw [EdgeRecord.placed_merge, Reference.ends_merge]
  rw [mergeParallel, if_neg merges]
  -- Both lists have one edge for each pair of endpoints, so that it is enough to compare their members.
  rw [List.perm_ext_iff_of_nodup]
  · intro placed
    simp only [List.map_map, List.mem_map, Function.comp_apply, Reference.mem_mergeParallel]
    constructor
    · rintro ⟨run, member, rfl⟩
      refine ⟨_, _, ?_, EdgeRecord.placed_merge policy run.1 run.2⟩
      rw [ends]
      exact groups run member
    · rintro ⟨first, later, split, rfl⟩
      have found := split ▸ List.mem_cons_self (a := first) (l := later)
      obtain ⟨record, member, rfl⟩ := List.mem_map.mp (List.mem_filter.mp found).1
      obtain ⟨run, runMember, inside⟩ := exists_run_of_mem parallel
        ((lawful.records_perm false held).symm.subset member)
      have same : record.pair = run.1.pair := by
        rw [whole run runMember] at inside
        simpa using (List.mem_filter.mp inside).2
      rw [Reference.ends_merge, (EdgeRecord.pair_eq_iff edges).mp same, groups run runMember] at split
      obtain ⟨firstSame, laterSame⟩ := List.cons.inj split
      refine ⟨run, runMember, ?_⟩
      rw [EdgeRecord.placed_merge, firstSame, laterSame]
  · apply List.Nodup.of_map (f := PlacedEdge.ends)
    simp only [List.map_map, Function.comp_def, ends]
    refine List.pairwise_map.mpr (rising.imp fun less same => ?_)
    exact Nat.ne_of_lt less ((EdgeRecord.pair_eq_iff edges).mpr same)
  · exact (Reference.mergeParallel_distinct _ _).of_map

/-- Merged records have endpoints that ascend, whatever the policy. -/
theorem pair_sorted_mergeParallel (lawful : sorter.Lawful) (policy : MergePolicy) :
    (mergeParallel policy (sorter.records false held)).Pairwise
      fun left right => left.pair ≤ right.pair := by
  have sorted := pair_sorted (lawful.keys_ascend false held)
  unfold mergeParallel
  split
  · exact sorted
  · obtain ⟨-, rising⟩ := runs_sorted parallel_iff sorted
    refine List.pairwise_map.mpr (rising.imp ?_)
    intro left right less
    -- Merging changes weights only, so that the runs stay apart.
    have ends : ∀ run : EdgeRecord × List EdgeRecord,
        (policy.merge run.1 run.2).pair = run.1.pair := by
      intro run
      unfold MergePolicy.merge
      split
      · rfl
      · rw [EdgeRecord.pair, EdgeRecord.src_withWeight, EdgeRecord.dst_withWeight]
        rfl
    rw [ends, ends]
    exact Nat.le_of_lt less

end Merging

/-- Among records with ascending endpoints, an edge is found if there is one. -/
theorem hasEdge_iff {records : List EdgeRecord} {src dst : VertexId}
    (sorted : records.Pairwise fun left right => left.pair ≤ right.pair) :
    hasEdge records.toArray src dst = true ↔
      ∃ record ∈ records, record.src = src ∧ record.dst = dst := by
  -- The search compares pairs of endpoints, which ascend.
  unfold hasEdge
  rw [List.size_toArray, Search.find?_key_iff (pairNumber src dst) sorted]
  · simp only [EdgeRecord.pair, pairNumber_inj]
  · intro i inside
    rw [List.getElem?_toArray, List.getElem?_eq_getElem inside]
    exact compare_pair _ _ src dst

/-- Records with ascending endpoints are given the same reverses as the edges that they stand for, whatever
positions are told from their places of origin. -/
theorem placedAt_withReverses (position : UInt32 → UInt64 → Nat) {records : List EdgeRecord}
    (sorted : records.Pairwise fun left right => left.pair ≤ right.pair) :
    (withReverses records).map (EdgeRecord.placedAt position) =
      Reference.addReverses (records.map (EdgeRecord.placedAt position)) := by
  unfold withReverses missingReverses Reference.addReverses
  rw [List.map_append, List.map_map, List.filter_map, List.map_map]
  congr 1
  -- The search finds a reverse if there is any, since the endpoints ascend.
  have lacks : ∀ record : EdgeRecord, hasEdge records.toArray record.dst record.src =
      (records.map (EdgeRecord.placedAt position)).any
        fun other => other.ends = (record.placedAt position).reversed.ends := by
    intro record
    have ends : ∀ other : EdgeRecord,
        (other.placedAt position).ends = (record.placedAt position).reversed.ends ↔
          other.src = record.dst ∧ other.dst = record.src := fun other => Prod.mk.injEq .. ▸ Iff.rfl
    rw [Bool.eq_iff_iff, hasEdge_iff sorted]
    simp only [List.any_map, List.any_eq_true, Function.comp_apply, decide_eq_true_eq, ends]
  simp only [lacks]
  rfl

/-- Records are given the same reverses as their edges in the positions that these were handed in at. -/
theorem placed_withReverses {records : List EdgeRecord}
    (sorted : records.Pairwise fun left right => left.pair ≤ right.pair) :
    (withReverses records).map (EdgeRecord.placed edges) =
      Reference.addReverses (records.map (EdgeRecord.placed edges)) :=
  placedAt_withReverses (fun rank seq => before edges rank.toNat + seq.toNat) sorted

/-- A rank that holds records in the order in which they were handed in cleans them up like the
edges that they stand for. -/
theorem placed_tidy_perm {sorter : Sorter} (lawful : sorter.Lawful) (policy : MergePolicy)
    (closeUnderReversal : Bool) {held : List EdgeRecord}
    (ordered : held.Pairwise fun left right => left.originNumber < right.originNumber) :
    ((tidy sorter policy false closeUnderReversal held).map (EdgeRecord.placed edges)).Perm
      (Reference.clean policy closeUnderReversal (held.map (EdgeRecord.placed edges))) := by
  have merged : ((mergeParallel policy (sorter.records false held)).map (EdgeRecord.placed edges)).Perm
      (if policy = .keepAll then held.map (EdgeRecord.placed edges)
        else Reference.mergeParallel policy (held.map (EdgeRecord.placed edges))) := by
    split
    · rename_i keeps
      rw [mergeParallel, if_pos keeps]
      exact (lawful.records_perm false held).map _
    · rename_i merges
      exact placed_mergeParallel_perm lawful merges ordered
  unfold tidy Reference.clean
  -- Adding reverses depends only on which edges there are after merging.
  cases closeUnderReversal with
  | false => exact merged
  | true =>
    refine ((lawful.records_perm false _).map _).trans ?_
    rw [if_neg (by simp), placed_withReverses (pair_sorted_mergeParallel lawful policy)]
    exact Reference.addReverses_perm merged

/-- What records have in common that turning around leaves alone, they still have once reverses are added. -/
theorem forall_withReverses {records : List EdgeRecord} {common : EdgeRecord → Prop}
    (known : ∀ record ∈ records, common record)
    (turning : ∀ record, common record → common record.reversed) :
    ∀ record ∈ withReverses records, common record := by
  intro record member
  -- A record was there before, or it is one of these turned around.
  rcases List.mem_append.mp member with own | added
  · exact known record own
  · obtain ⟨origin, found, rfl⟩ := List.mem_map.mp added
    exact turning origin (known origin (List.mem_of_mem_filter found))

/-- What records have in common that merging and turning around leave alone, they still have once they
are cleaned up. -/
theorem forall_tidy {sorter : Sorter} (lawful : sorter.Lawful) {policy : MergePolicy}
    {closeUnderReversal : Bool} {held : List EdgeRecord} {common : EdgeRecord → Prop}
    (known : ∀ record ∈ held, common record)
    (merging : ∀ first later, common first → common (policy.merge first later))
    (turning : closeUnderReversal = true → ∀ record, common record → common record.reversed) :
    ∀ record ∈ tidy sorter policy false closeUnderReversal held, common record := by
  -- Merging starts from a record that was there, which sorting does not change.
  have merged : ∀ record ∈ mergeParallel policy (sorter.records false held), common record := by
    intro record member
    unfold mergeParallel at member
    split at member
    · exact known record ((lawful.records_perm false held).subset member)
    · obtain ⟨run, runMember, rfl⟩ := List.mem_map.mp member
      have first := (lawful.records_perm false held).subset (fst_mem_of_mem_runs runMember)
      exact merging run.1 run.2 (known run.1 first)
  intro record member
  unfold tidy at member
  cases closeUnderReversal with
  | false => exact merged record member
  | true =>
    have member := (lawful.records_perm false _).subset member
    rw [if_neg (by simp)] at member
    exact forall_withReverses merged (turning rfl) record member

/-- Cleaning up leaves a record with the endpoints of every one that is handed in. -/
theorem exists_mem_tidy {sorter : Sorter} (lawful : sorter.Lawful) (policy : MergePolicy)
    (closeUnderReversal : Bool) {held : List EdgeRecord} {record : EdgeRecord} (member : record ∈ held) :
    ∃ kept ∈ tidy sorter policy false closeUnderReversal held,
      kept.src = record.src ∧ kept.dst = record.dst := by
  have sorted : record ∈ sorter.records false held := (lawful.records_perm false held).mem_iff.mpr member
  have merged : ∃ kept ∈ mergeParallel policy (sorter.records false held),
      kept.src = record.src ∧ kept.dst = record.dst := by
    unfold mergeParallel
    split
    · exact ⟨record, sorted, rfl, rfl⟩
    · -- What the run of the record is merged into stands for it.
      obtain ⟨run, cut, within⟩ := exists_run_of_mem parallel sorted
      obtain ⟨whole, -⟩ := runs_sorted parallel_iff (pair_sorted (lawful.keys_ascend false held))
      rw [whole run cut] at within
      have same : record.pair = run.1.pair := of_decide_eq_true (List.mem_filter.mp within).2
      obtain ⟨src, dst⟩ := pairNumber_inj.mp same
      obtain ⟨mergedSrc, mergedDst⟩ := EdgeRecord.ends_merge policy run.1 run.2
      exact ⟨_, List.mem_map_of_mem cut, mergedSrc.trans src.symm, mergedDst.trans dst.symm⟩
  obtain ⟨kept, found, ends⟩ := merged
  unfold tidy
  rw [if_neg Bool.false_ne_true]
  split
  · exact ⟨kept, (lawful.records_perm false _).mem_iff.mpr (List.mem_append_left _ found), ends⟩
  · exact ⟨kept, found, ends⟩

/-- Cleaned up records still tell where their edges were handed in. -/
theorem genuine_tidy {sorter : Sorter} (lawful : sorter.Lawful) {policy : MergePolicy}
    {closeUnderReversal : Bool} {held : List EdgeRecord}
    (known : ∀ record ∈ held, record.Genuine edges) :
    ∀ record ∈ tidy sorter policy false closeUnderReversal held, record.Genuine edges :=
  forall_tidy lawful known (fun _ later genuine => genuine.merge policy later)
    fun _ _ genuine => genuine.congr rfl rfl

/-- Merging adds no records. -/
theorem length_mergeParallel_le {sorter : Sorter} (lawful : sorter.Lawful) (policy : MergePolicy)
    (held : List EdgeRecord) : (mergeParallel policy (sorter.records false held)).length ≤ held.length := by
  -- One record is left of every run.
  have sorted := (lawful.records_perm false held).length_eq
  unfold mergeParallel
  split
  · omega
  · have fewer := length_runs_le parallel (sorter.records false held)
    rw [List.length_map]
    omega

/-- Cleaning up adds no more than one reverse per record. -/
theorem length_tidy_le {sorter : Sorter} (lawful : sorter.Lawful) (policy : MergePolicy)
    (closeUnderReversal : Bool) (held : List EdgeRecord) :
    (tidy sorter policy false closeUnderReversal held).length ≤ 2 * held.length := by
  have merged := length_mergeParallel_le lawful policy held
  unfold tidy
  cases closeUnderReversal with
  | false => exact Nat.le_trans merged (by omega)
  | true =>
    -- Every record lacks one reverse at most.
    have all := (lawful.records_perm false
      (withReverses (mergeParallel policy (sorter.records false held)))).length_eq
    have added : (missingReverses (mergeParallel policy (sorter.records false held))).length ≤
        (mergeParallel policy (sorter.records false held)).length := by
      rw [missingReverses, List.length_map]
      exact List.length_filter_le _ _
    rw [withReverses, List.length_append] at all
    exact all.trans_le (by omega)

end Cleanup

end DistGraph
