import DistGraph.Proofs.Cleanup

/-! The endpoints of cleaned up records are told by the endpoints alone, in whatever order they come and
whatever else the records carry. -/

namespace DistGraph

/-- The endpoints of an edge. -/
def Edge.ends (edge : Edge) : VertexId × VertexId :=
  -- Direction matters.
  (edge.src, edge.dst)

namespace EdgeRecord

/-- The endpoints of a record. -/
def ends (record : EdgeRecord) : VertexId × VertexId :=
  -- Direction matters.
  (record.src, record.dst)

/-- A record that has given endpoints and nothing else. -/
def between (ends : VertexId × VertexId) : EdgeRecord :=
  { blank with src := ends.1, dst := ends.2 }

variable {left right : List EdgeRecord}

/-- Records have the same endpoints when the numbers of their pairs agree. -/
theorem ends_eq_iff {left right : EdgeRecord} : left.ends = right.ends ↔ left.pair = right.pair := by
  rw [pair, pair, pairNumber_inj, ends, ends, Prod.mk.injEq]

/-- The endpoints of a record as one number, in which the one that rows are grouped by weighs more. -/
def rowNumber (transposed : Bool) (record : EdgeRecord) : Nat :=
  -- Stored by source, this is the number of the pair.
  pairNumber (record.major transposed) (record.minor transposed)

/-- Records fall into the same row and column when they have the same endpoints. -/
theorem rowNumber_eq_iff {transposed : Bool} {left right : EdgeRecord} :
    left.rowNumber transposed = right.rowNumber transposed ↔ left.ends = right.ends := by
  rw [rowNumber, rowNumber, pairNumber_inj, ends, ends, Prod.mk.injEq]
  -- The endpoints only trade places with the orientation.
  cases transposed with
  | false => rfl
  | true => exact and_comm

/-- The sort key is the place in the table followed by the origin. -/
theorem keyNumber_eq (transposed : Bool) (record : EdgeRecord) : record.keyNumber transposed =
    record.rowNumber transposed * 2 ^ 96 + record.originNumber := rfl

/-- The records of edges have the endpoints of the edges. -/
theorem map_ends_ofEdges (rank : Nat) (edges : List Edge) :
    (ofEdges rank edges).map ends = edges.map Edge.ends := by
  have each : ∀ entry : Edge × Nat, (ofEdge entry.1 rank (UInt64.ofNat entry.2)).ends =
      entry.1.ends := fun _ => rfl
  rw [ofEdges, List.map_map]
  -- The numbering in the list has no part in the endpoints.
  calc edges.zipIdx.map (ends ∘ fun entry => ofEdge entry.1 rank (UInt64.ofNat entry.2))
      = (edges.zipIdx.map Prod.fst).map Edge.ends := by
        rw [List.map_map]
        exact List.map_congr_left fun entry _ => each entry
    _ = edges.map Edge.ends := by rw [List.zipIdx_map_fst]

/-- Of records with the same endpoints, those that are kept for their endpoints have the same as well. -/
theorem filter_ends_perm (keeps : EdgeRecord → Bool)
    (alike : ∀ left right : EdgeRecord, left.ends = right.ends → keeps left = keeps right)
    (same : (left.map ends).Perm (right.map ends)) :
    ((left.filter keeps).map ends).Perm ((right.filter keeps).map ends) := by
  -- Whether a record is kept can be asked of its endpoints.
  have asked : ∀ records : List EdgeRecord, (records.filter keeps).map ends =
      (records.map ends).filter fun pair => keeps (between pair) := by
    intro records
    rw [List.filter_map]
    exact congrArg _ (List.filter_congr fun record _ => alike record (between record.ends) rfl)
  rw [asked, asked]
  exact same.filter _

/-- Whatever is read off the endpoints is the same for records with the same endpoints. -/
theorem map_perm_of_ends {α : Type} (read : EdgeRecord → α)
    (alike : ∀ left right : EdgeRecord, left.ends = right.ends → read left = read right)
    (same : (left.map ends).Perm (right.map ends)) : (left.map read).Perm (right.map read) := by
  -- It can be read off any record with the endpoints, so that it is a function of these.
  have asked : ∀ records : List EdgeRecord, records.map read =
      (records.map ends).map fun pair => read (between pair) := by
    intro records
    rw [List.map_map]
    exact List.map_congr_left fun record _ => alike record (between record.ends) rfl
  rw [asked, asked]
  exact same.map _

/-- The major endpoint is one of the endpoints. -/
theorem major_congr {transposed : Bool} {left right : EdgeRecord} (same : left.ends = right.ends) :
    left.major transposed = right.major transposed := by
  obtain ⟨src, dst⟩ := Prod.mk.inj same
  simp [major, src, dst]

/-- The minor endpoint is one of the endpoints. -/
theorem minor_congr {transposed : Bool} {left right : EdgeRecord} (same : left.ends = right.ends) :
    left.minor transposed = right.minor transposed := by
  obtain ⟨src, dst⟩ := Prod.mk.inj same
  simp [minor, src, dst]

end EdgeRecord

namespace Cleanup

/-- The endpoints that are left of some when parallel edges are merged. -/
def mergedEnds (policy : MergePolicy) (ends : List (VertexId × VertexId)) : List (VertexId × VertexId) :=
  -- How weights are combined makes no difference.
  if policy = .keepAll then ends else ends.dedup

/-- Endpoints with the reverses that are missing among them. -/
def completedEnds (ends : List (VertexId × VertexId)) : List (VertexId × VertexId) :=
  -- Parallel edges lack one reverse each, and self-loops lack none.
  ends ++ (ends.filter fun pair => pair.1 != pair.2 && !ends.contains pair.swap).map Prod.swap

/-- The endpoints that are left of some when records are cleaned up. -/
def tidiedEnds (policy : MergePolicy) (closeUnderReversal : Bool) (ends : List (VertexId × VertexId)) :
    List (VertexId × VertexId) :=
  -- Duplicates are merged before reversal.
  if closeUnderReversal then completedEnds (mergedEnds policy ends) else mergedEnds policy ends

/-- In whatever order endpoints come, the same are left by merging. -/
theorem mergedEnds_perm {left right : List (VertexId × VertexId)} (policy : MergePolicy)
    (same : left.Perm right) : (mergedEnds policy left).Perm (mergedEnds policy right) := by
  -- Merging keeps all endpoints or drops repeated ones.
  unfold mergedEnds
  split
  · exact same
  · exact same.dedup

/-- In whatever order endpoints come, the same are added to them. -/
theorem completedEnds_perm {left right : List (VertexId × VertexId)} (same : left.Perm right) :
    (completedEnds left).Perm (completedEnds right) := by
  unfold completedEnds
  -- Which endpoints lack their reverse does not depend on the order.
  have lacks : (fun pair : VertexId × VertexId => pair.1 != pair.2 && !left.contains pair.swap) =
      fun pair => pair.1 != pair.2 && !right.contains pair.swap := by
    funext pair
    rw [same.contains_eq]
  rw [lacks]
  exact same.append ((same.filter _).map _)

/-- In whatever order endpoints come, the same are left. -/
theorem tidiedEnds_perm {left right : List (VertexId × VertexId)} (policy : MergePolicy)
    (closeUnderReversal : Bool) (same : left.Perm right) :
    (tidiedEnds policy closeUnderReversal left).Perm (tidiedEnds policy closeUnderReversal right) := by
  -- Reverses are added to what merging leaves, or not at all.
  unfold tidiedEnds
  split
  · exact completedEnds_perm (mergedEnds_perm policy same)
  · exact mergedEnds_perm policy same

/-- Records are parallel when they have the same endpoints. -/
theorem parallel_iff_ends (left right : EdgeRecord) :
    parallel left right = true ↔ left.ends = right.ends := by
  rw [parallel_iff, EdgeRecord.ends_eq_iff]

/-- One record that stands for parallel ones has their endpoints. -/
@[simp] theorem ends_merge (policy : MergePolicy) (first : EdgeRecord) (later : List EdgeRecord) :
    (policy.merge first later).ends = first.ends := by
  obtain ⟨src, dst⟩ := EdgeRecord.ends_merge policy first later
  exact Prod.ext src dst

variable {sorter : Sorter} {held : List EdgeRecord}

/-- Sorted in either orientation, records are cut into runs that are all of given endpoints. -/
theorem runs_records (lawful : sorter.Lawful) (transposed : Bool) (held : List EdgeRecord) :
    SortedRuns (EdgeRecord.rowNumber transposed) (sorter.records transposed held)
      (runs parallel (sorter.records transposed held)) := by
  -- The sort key ranks the place in the table above the origin.
  refine runs_sorted (fun left right => ?_) ((lawful.keys_ascend transposed held).imp ?_)
  · rw [parallel_iff_ends, EdgeRecord.rowNumber_eq_iff]
  · intro left right before
    have := left.originNumber_lt
    have := right.originNumber_lt
    rw [EdgeRecord.keyNumber_eq, EdgeRecord.keyNumber_eq] at before
    omega

/-- Merging sorted records leaves one of every endpoints, in either orientation. -/
theorem map_ends_mergeParallel_perm (lawful : sorter.Lawful) (policy : MergePolicy) (transposed : Bool) :
    ((mergeParallel policy (sorter.records transposed held)).map EdgeRecord.ends).Perm
      (mergedEnds policy (held.map EdgeRecord.ends)) := by
  unfold mergeParallel mergedEnds
  split
  · exact (lawful.records_perm transposed held).map _
  · obtain ⟨whole, rising⟩ := runs_records lawful transposed held
    rw [List.map_map, List.perm_ext_iff_of_nodup _ (List.nodup_dedup _)]
    · intro pair
      simp only [List.mem_dedup, List.mem_map, Function.comp_apply, ends_merge]
      constructor
      · rintro ⟨run, member, rfl⟩
        exact ⟨run.1, (lawful.records_perm transposed held).subset (fst_mem_of_mem_runs member), rfl⟩
      · rintro ⟨record, member, rfl⟩
        -- The run of the record begins with the same endpoints.
        obtain ⟨run, cut, inside⟩ := exists_run_of_mem parallel
          ((lawful.records_perm transposed held).symm.subset member)
        rw [whole run cut] at inside
        have same := of_decide_eq_true (List.mem_filter.mp inside).2
        exact ⟨run, cut, (EdgeRecord.rowNumber_eq_iff.mp same).symm⟩
    · refine List.pairwise_map.mpr (rising.imp fun less same => ?_)
      rw [Function.comp_apply, Function.comp_apply, ends_merge, ends_merge] at same
      exact Nat.ne_of_lt less (EdgeRecord.rowNumber_eq_iff.mpr same)

/-- Among records with ascending endpoints, the reverse of a record is found if there is one. -/
theorem hasEdge_swap_iff {records : List EdgeRecord}
    (sorted : records.Pairwise fun left right => left.pair ≤ right.pair) (record : EdgeRecord) :
    hasEdge records.toArray record.dst record.src = true ↔
      record.ends.swap ∈ records.map EdgeRecord.ends := by
  rw [hasEdge_iff sorted, List.mem_map]
  simp only [EdgeRecord.ends, Prod.swap_prod_mk, Prod.mk.injEq]

/-- Records with ascending endpoints are given the reverses that their endpoints lack. -/
theorem map_ends_withReverses {records : List EdgeRecord}
    (sorted : records.Pairwise fun left right => left.pair ≤ right.pair) :
    (withReverses records).map EdgeRecord.ends = completedEnds (records.map EdgeRecord.ends) := by
  -- The search in the sorted array finds an edge exactly if its endpoints are listed.
  have lacks : ∀ record : EdgeRecord, hasEdge records.toArray record.dst record.src =
      (records.map EdgeRecord.ends).contains record.ends.swap := by
    intro record
    rw [Bool.eq_iff_iff, hasEdge_swap_iff sorted, List.contains_iff_mem]
  unfold withReverses missingReverses completedEnds
  rw [List.map_append, List.map_map, List.filter_map, List.map_map]
  simp only [lacks]
  rfl

/-- The endpoints of cleaned up records are those that cleaning up leaves of endpoints. -/
theorem map_ends_tidy_perm (lawful : sorter.Lawful) (policy : MergePolicy) (closeUnderReversal : Bool) :
    ((tidy sorter policy false closeUnderReversal held).map EdgeRecord.ends).Perm
      (tidiedEnds policy closeUnderReversal (held.map EdgeRecord.ends)) := by
  have merged := @map_ends_mergeParallel_perm sorter held lawful policy false
  unfold tidy tidiedEnds
  cases closeUnderReversal with
  | false => exact merged
  | true =>
    -- Sorting once more moves the records that are completed, and nothing else.
    refine ((lawful.records_perm false _).map _).trans ?_
    rw [if_neg Bool.false_ne_true, map_ends_withReverses (pair_sorted_mergeParallel lawful policy)]
    exact completedEnds_perm merged

end Cleanup

end DistGraph
