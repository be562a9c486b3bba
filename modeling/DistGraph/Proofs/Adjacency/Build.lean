import DistGraph.Proofs.Adjacency.Plain
import DistGraph.Proofs.Adjacency.View
import DistGraph.Proofs.Routing.Exchange
import DistGraph.Proofs.Sorter

/-! What the views of all ranks show after each stored the records of its vertices. -/

namespace DistGraph.View

variable {size : Nat}

/-- No record strays from a run of vertices if that holds the major endpoints of all of them. -/
@[simp] theorem stray?_eq_none_iff {range : Span} {transposed : Bool} {records : List EdgeRecord} :
    stray? range transposed records = none ↔
      ∀ record ∈ records, range.contains (record.major transposed) = true := by
  simp [stray?]

variable {members : Fin size → Member size} {records : Fin size → List EdgeRecord}
  {partition : Partition size} {transposed : Bool} {budget : Option UInt64}

/-- Whether views are what the ranks come to when each stores the records that have reached it. -/
structure Built (members : Fin size → Member size) (records : Fin size → List EdgeRecord)
    (partition : Partition size) (transposed : Bool) (budget : Option UInt64)
    (views : Fin size → View size) : Prop where
  /-- Every rank owns what has reached it. -/
  own : ∀ rank, ∀ record ∈ records rank,
    (partition.spanOf rank).contains (record.major transposed) = true
  /-- Every rank has segments for its sorted records, and all records are counted. -/
  stored : ∃ (totals : Fin size → UInt64) (segments : Fin size → List Segment),
    (∀ (rank : Fin size) first others,
      (List.ofFn fun rank => UInt64.ofNat
        ((members rank).sorter.records transposed (records rank)).length) = first :: others →
      others.foldlM Communicator.Reduction.sum.combine first = .ok (totals rank)) ∧
    (∀ rank, Segment.buildAll (members rank) budget transposed (partition.spanOf rank)
      ((members rank).sorter.records transposed (records rank)) = .ok (segments rank)) ∧
    views = fun rank => {
      rank, partition, transposed, segments := (segments rank).toArray
      segmentBudget := budget, globalEdgeCount := totals rank }

/-- Refuses records of which one strays from a run of vertices. -/
def refuseStray (range : Span) (transposed : Bool) (records : List EdgeRecord) : Except Failure Unit :=
  -- The first one is told.
  match stray? range transposed records with
  | some vertex => .error (.diverged (.ownership vertex))
  | none => .ok ()

/-- Records pass the check when the rank owns all of their major endpoints. -/
theorem refuseStray_eq_ok_iff {range : Span} {transposed : Bool} {records : List EdgeRecord} :
    refuseStray range transposed records = .ok () ↔
      ∀ record ∈ records, range.contains (record.major transposed) = true := by
  rw [← stray?_eq_none_iff, refuseStray]
  cases stray? range transposed records <;> simp

/-- A rank that stops at a record of another rank keeps all ranks from going on. -/
theorem build_eq {member : Member size} {rank : Fin size} (ranked : member.rank = rank)
    (records : List EdgeRecord) (partition : Partition size) (transposed : Bool)
    (budget : Option UInt64) : build member records partition transposed budget =
      (Program.ofExcept (refuseStray (partition.spanOf rank) transposed records) >>= fun _ =>
      (Communicator.allReduce .sum (UInt64.ofNat
        (member.sorter.records transposed records).length)).mapError .ofGraph >>= fun total =>
      Program.ofExcept (Segment.buildAll member budget transposed (partition.spanOf rank)
        (member.sorter.records transposed records)) >>= fun segments =>
      pure {
        rank, partition, transposed, segments := segments.toArray
        segmentBudget := budget, globalEdgeCount := total }) := by
  unfold build refuseStray
  simp only [ranked]
  -- The search for a stray record is what the check turns into an outcome.
  cases stray? (partition.spanOf rank) transposed records <;> rfl

/-- Ranks that store records together come to views of them. -/
theorem build_computes (ranked : ∀ rank, (members rank).rank = rank) :
    Computes (fun rank => build (members rank) (records rank) partition transposed budget)
      (Built members records partition transposed budget) := by
  simp only [build_eq (ranked _)]
  -- The views that follow from the totals and the segments.
  let shown := fun (totals : Fin size → UInt64) (segments : Fin size → List Segment)
      (views : Fin size → View size) => views = fun rank => {
        rank, partition, transposed, segments := (segments rank).toArray
        segmentBudget := budget, globalEdgeCount := totals rank }
  refine ((Computes.require _).afterIf _ fun _ => Computes.bind
    (fun totals views => ∃ segments : Fin size → List Segment,
      (∀ rank, Segment.buildAll (members rank) budget transposed (partition.spanOf rank)
        ((members rank).sorter.records transposed (records rank)) = .ok (segments rank)) ∧
      shown totals segments views)
    (Communicator.fold_computes Wire.word _ _).mapError fun totals _ => Computes.bind
    (fun segments => shown totals segments)
    ((Computes.ofExcept _).congr fun segments => Iff.rfl) fun segments _ => Computes.pure _).congr
    fun views => ?_
  simp only [refuseStray_eq_ok_iff]
  constructor
  · intro ⟨own, totals, counted, segments, stored, known⟩
    exact ⟨own, totals, segments, counted, stored, known⟩
  · intro ⟨own, totals, segments, counted, stored, known⟩
    exact ⟨own, totals, counted, segments, stored, known⟩

/-- The major endpoints of sorted records ascend. -/
theorem majors_ascend {sorter : Sorter} (lawful : sorter.Lawful) (transposed : Bool)
    (records : List EdgeRecord) : (sorter.records transposed records).Pairwise
      fun left right => left.majorNumber transposed ≤ right.majorNumber transposed := by
  -- The major endpoint is the leading part of the sort key.
  refine (lawful.keys_ascend transposed records).imp ?_
  intro left right before
  have parts := EdgeRecord.keyNumber_le_iff.mp before
  unfold EdgeRecord.majorNumber
  omega

/-- Sorting the records that a rank owns leaves it with ascending records of its own vertices. -/
theorem sorted_own (lawful : ∀ rank, (members rank).sorter.Lawful)
    (own : ∀ rank, ∀ record ∈ records rank,
      (partition.spanOf rank).contains (record.major transposed) = true) (rank : Fin size) :
    ((members rank).sorter.records transposed (records rank)).Pairwise (fun left right =>
        left.majorNumber transposed ≤ right.majorNumber transposed) ∧
      ∀ record ∈ (members rank).sorter.records transposed (records rank),
        (partition.spanOf rank).contains (record.major transposed) = true :=
  ⟨majors_ascend (lawful rank) _ _,
    fun record member => own rank record (((lawful rank).records_perm _ _).subset member)⟩

namespace Built

variable {views : Fin size → View size}

/-- Every rank's view covers the vertices that the partition gives it. -/
theorem range_eq (built : Built members records partition transposed budget views)
    (rank : Fin size) : (views rank).range = partition.spanOf rank := by
  obtain ⟨-, -, -, -, -, rfl⟩ := built
  rfl

/-- All views share the partition that they were built for. -/
theorem partition_eq (built : Built members records partition transposed budget views)
    (rank : Fin size) : (views rank).partition = partition := by
  obtain ⟨-, -, -, -, -, rfl⟩ := built
  rfl

/-- Every view knows its own rank. -/
theorem rank_eq (built : Built members records partition transposed budget views) (rank : Fin size) :
    (views rank).rank = rank := by
  obtain ⟨-, -, -, -, -, rfl⟩ := built
  rfl

/-- All views are oriented as they were built. -/
theorem transposed_eq (built : Built members records partition transposed budget views)
    (rank : Fin size) : (views rank).transposed = transposed := by
  obtain ⟨-, -, -, -, -, rfl⟩ := built
  rfl

/-- Every view remembers the budget that cut its segments. -/
theorem segmentBudget_eq (built : Built members records partition transposed budget views)
    (rank : Fin size) : (views rank).segmentBudget = budget := by
  obtain ⟨-, -, -, -, -, rfl⟩ := built
  rfl

/-- Every rank shows the records that have reached it, sorted. -/
theorem shows (built : Built members records partition transposed budget views)
    (lawful : ∀ rank, (members rank).sorter.Lawful) (rank : Fin size) :
    (views rank).Shows ((members rank).sorter.records transposed (records rank)) := by
  -- What a single rank shows depends on its own segments only, whatever the others count.
  obtain ⟨own, totals, segments, -, stored, rfl⟩ := built
  obtain ⟨sorted, inside⟩ := sorted_own lawful own rank
  exact shows_of_buildAll (members rank) budget (partition.spanOf_ordered rank) sorted inside
    (stored rank) rfl rfl rfl

/-- Every rank has a row for each of its vertices. -/
theorem isSome_locateVertex? (built : Built members records partition transposed budget views)
    (lawful : ∀ rank, (members rank).sorter.Lawful) {rank : Fin size} {vertex : VertexId}
    (owned : (partition.spanOf rank).contains vertex = true) :
    ((views rank).locateVertex? vertex).isSome := by
  -- Segments are built for all vertices of the run, those without records included.
  obtain ⟨own, totals, segments, -, stored, rfl⟩ := built
  obtain ⟨sorted, inside⟩ := sorted_own lawful own rank
  exact isSome_locateVertex?_of_buildAll (members rank) budget (partition.spanOf_ordered rank) sorted
    inside (stored rank) rfl rfl rfl owned

/-- The edges of a rank are those of its records, sorted. -/
theorem edges_eq (built : Built members records partition transposed budget views)
    (lawful : ∀ rank, (members rank).sorter.Lawful) (rank : Fin size) :
    (views rank).edges =
      ((members rank).sorter.records transposed (records rank)).map EdgeRecord.toEdge := by
  -- The rows give the edges vertex by vertex, which is the sorted order.
  apply (built.shows lawful rank).edges_eq
  · rw [built.transposed_eq]
    exact majors_ascend (lawful rank) _ _
  · intro record member
    rw [built.transposed_eq, built.range_eq]
    exact built.own rank record (((lawful rank).records_perm _ _).subset member)

/-- Every rank has as many edges as records have reached it. -/
theorem edgeCount_eq (built : Built members records partition transposed budget views)
    (lawful : ∀ rank, (members rank).sorter.Lawful) (rank : Fin size) :
    (views rank).edgeCount = (records rank).length := by
  obtain ⟨own, totals, segments, -, stored, rfl⟩ := built
  obtain ⟨sorted, inside⟩ := sorted_own lawful own rank
  -- Sorting keeps the number of records, and the segments store each of them once.
  rw [← ((lawful rank).records_perm transposed (records rank)).length_eq,
    ← sum_edgeCounts_of_buildAll (members rank) budget (partition.spanOf_ordered rank) sorted inside
      (stored rank)]
  rfl

/-- Every rank stores edges of its own vertices only. -/
theorem row_inside (built : Built members records partition transposed budget views)
    (lawful : ∀ rank, (members rank).sorter.Lawful) {rank : Fin size} {segment : Segment}
    (member : segment ∈ (views rank).segments) {index : Nat}
    (filled : segment.table.row index ≠ []) :
    (partition.spanOf rank).start.toNat ≤ segment.firstVertex.toNat + index ∧
      segment.firstVertex.toNat + index < (partition.spanOf rank).stop.toNat := by
  -- The view adds nothing to its segments, whose rows the pieces of the run bound.
  obtain ⟨own, totals, segments, -, stored, rfl⟩ := built
  obtain ⟨sorted, inside⟩ := sorted_own lawful own rank
  exact row_inside_of_buildAll (members rank) budget (partition.spanOf_ordered rank) sorted inside
    (stored rank) (by simpa using member) filled

/-- Every rank counts the records of all ranks, if each rank's records can be counted by a word. -/
theorem globalEdgeCount_eq_of_short (built : Built members records partition transposed budget views)
    (lawful : ∀ rank, (members rank).sorter.Lawful)
    (short : ∀ rank, (records rank).length < UInt64.size) (rank : Fin size) :
    (views rank).globalEdgeCount.toNat = (everything records).length := by
  obtain ⟨-, totals, -, counted, -, rfl⟩ := built
  have total := sum_counts_eq_of_short short
  simp only [((lawful _).records_perm _ _).length_eq] at counted
  -- Adding up starts from the first rank's count, and there is a first rank.
  cases listed : List.ofFn fun rank => UInt64.ofNat (records rank).length with
  | nil =>
    have length := congrArg List.length listed
    rw [List.length_ofFn] at length
    exact absurd length (Nat.ne_of_gt rank.pos)
  | cons first others =>
    rw [listed, List.map_cons, List.sum_cons] at total
    rw [← total]
    exact (Word.foldlM_add_eq_ok_iff.mp (counted rank first others listed)).symm

/-- Every rank counts the records of all ranks. -/
theorem globalEdgeCount_eq (built : Built members records partition transposed budget views)
    (lawful : ∀ rank, (members rank).sorter.Lawful)
    (fits : (everything records).length < UInt64.size) (rank : Fin size) :
    (views rank).globalEdgeCount.toNat = (everything records).length :=
  built.globalEdgeCount_eq_of_short lawful
    (fun other => Nat.lt_of_le_of_lt (length_le_everything records other) fits) rank

/-- Ranks with the same memory come to the same rows with records that are stored alike. -/
theorem storedAlike {others : Fin size → Member size} {otherRecords : Fin size → List EdgeRecord}
    {change : EdgeRecord → EdgeRecord} {other : Bool}
    (built : Built members records partition transposed budget views)
    (alike : EdgeRecord.StoredAlike change transposed other)
    (memory : ∀ rank, (others rank).memory = (members rank).memory)
    (lawful : ∀ rank, (members rank).sorter.Lawful) (otherLawful : ∀ rank, (others rank).sorter.Lawful)
    (sorted : ∀ rank, ((others rank).sorter.records other (otherRecords rank)).map EdgeRecord.toEdge =
      (((members rank).sorter.records transposed (records rank)).map change).map EdgeRecord.toEdge) :
    Built others otherRecords partition other budget fun rank => { views rank with transposed := other } := by
  obtain ⟨own, totals, segments, counted, stored, rfl⟩ := built
  have lengths : ∀ rank, ((others rank).sorter.records other (otherRecords rank)).length =
      ((members rank).sorter.records transposed (records rank)).length := by
    intro rank
    simpa using congrArg List.length (sorted rank)
  refine ⟨fun rank record member => ?_, totals, segments, ?_, fun rank => ?_, rfl⟩
  · -- A record of the other graph has the edge of one that the rank owns.
    have held : record.toEdge ∈
        ((others rank).sorter.records other (otherRecords rank)).map EdgeRecord.toEdge :=
      List.mem_map_of_mem (((otherLawful rank).records_perm _ _).mem_iff.mpr member)
    rw [sorted rank, List.map_map] at held
    obtain ⟨origin, found, same⟩ := List.mem_map.mp held
    rw [EdgeRecord.major_congr_toEdge same.symm, alike.major]
    exact own rank origin (((lawful rank).records_perm _ _).subset found)
  · simp only [lengths]
    exact counted
  · rw [Segment.buildAll_congr _ _ _ (sorted rank), Segment.buildAll_map alike,
      Segment.buildAll_of_memory_eq (memory rank)]
    exact stored rank

/-- Ranks with the same memory come to the same views with records of the same edges. -/
theorem congr {others : Fin size → Member size} {otherRecords : Fin size → List EdgeRecord}
    (built : Built members records partition transposed budget views)
    (memory : ∀ rank, (others rank).memory = (members rank).memory)
    (lawful : ∀ rank, (members rank).sorter.Lawful) (otherLawful : ∀ rank, (others rank).sorter.Lawful)
    (sorted : ∀ rank, ((others rank).sorter.records transposed (otherRecords rank)).map EdgeRecord.toEdge =
      ((members rank).sorter.records transposed (records rank)).map EdgeRecord.toEdge) :
    Built others otherRecords partition transposed budget views := by
  -- Only the orientation could differ, and it is the same on both sides.
  have same : (fun rank => { views rank with transposed := transposed }) = views := by
    funext rank
    rw [← built.transposed_eq rank]
  have stored := built.storedAlike (EdgeRecord.id_storedAlike transposed) memory lawful otherLawful
    fun rank => (sorted rank).trans (by rw [List.map_id])
  rwa [same] at stored

end Built

/-- Ranks that have buffers for their own records and can count all of them come to views. -/
theorem exists_built_of_room (lawful : ∀ rank, (members rank).sorter.Lawful)
    (own : ∀ rank, ∀ record ∈ records rank,
      (partition.spanOf rank).contains (record.major transposed) = true)
    (room : ∀ rank, ∀ length ≤ (records rank).length,
      (members rank).makeRoom HalfEdge.cellBytes length = .ok ())
    (fits : (everything records).length < UInt64.size) :
    ∃ views, Built members records partition transposed budget views := by
  have lengths : ∀ rank, ((members rank).sorter.records transposed (records rank)).length =
      (records rank).length := fun rank => ((lawful rank).records_perm _ _).length_eq
  have each : ∀ rank, ∃ segments, Segment.buildAll (members rank) budget transposed
      (partition.spanOf rank) ((members rank).sorter.records transposed (records rank)) =
        .ok segments := by
    intro rank
    obtain ⟨sorted, inside⟩ := sorted_own lawful own rank
    exact exists_buildAll (members rank) budget (partition.spanOf_ordered rank) sorted inside
      fun length few => room rank length (lengths rank ▸ few)
  choose segments stored using each
  refine ⟨_, own, fun _ => UInt64.ofNat (everything records).length, segments, ?_, stored, rfl⟩
  intro rank first others counts
  -- All ranks add up the same numbers, to what fits into a word.
  have total := sum_counts_eq fits
  simp only [lengths] at counts
  rw [counts, List.map_cons, List.sum_cons] at total
  apply Word.foldlM_add_eq_ok_iff.mpr
  rw [total, UInt64.toNat_ofNat_of_lt' fits]

/-- Ranks that can hold all records come to views of those that they own. -/
theorem exists_built {number : Nat} (lawful : ∀ rank, (members rank).sorter.Lawful)
    (own : ∀ rank, ∀ record ∈ records rank,
      (partition.spanOf rank).contains (record.major transposed) = true)
    (few : (everything records).length ≤ number) (holds : ∀ rank, (members rank).Holds number) :
    ∃ views, Built members records partition transposed budget views := by
  refine exists_built_of_room lawful own (fun rank length fewer => ?_) ?_
  · have share := length_le_everything records rank
    exact (holds rank).makeRoom (Nat.le_refl _) (by omega)
  · -- All records together can be counted, so the number of them fits a word.
    rcases Nat.eq_zero_or_pos size with none_there | occupied
    · subst none_there
      rw [everything_zero]
      decide
    · exact Nat.lt_of_le_of_lt (Nat.le_trans few (holds ⟨0, occupied⟩).counts) (by decide)

end DistGraph.View
