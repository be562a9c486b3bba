import DistGraph.Proofs.Adjacency.InStep
import DistGraph.Proofs.Construction.GivenIds
import DistGraph.Proofs.Construction.NewIds
import DistGraph.Proofs.Construction.Refusal
import DistGraph.Proofs.Numbering.InStep

/-! Ranks stay in step while they build a graph of what they were given. -/

namespace DistGraph.Construction

open DistGraph.Numbering (Agreed Agreement newOf)

variable {size : Nat} {members : Fin size → Member size} {premises : Premises members}
  {facts : Fin size → Prop} {options : Options}

/-- Ranks may make records of their edges. -/
theorem recordsOf_leads {edges : Fin size → List Edge} (ranked : ∀ rank, (members rank).rank = rank)
    (stores : premises.roomy → ∀ rank, (edges rank).length * Wire.record.bytes ≤ Memory.largestBuffer) :
    Leads premises.blame facts
      (fun rank => Program.ofExcept (recordsOf (members rank) (edges rank) options))
      (premises.blame.Pending (fun rank => facts rank ∧ (edges rank).length < UInt64.size)
        (handedIn options edges)) := by
  -- A rank that gets a buffer for its edges can number them.
  refine Leads.ofExcept (fun rank records fact made => ?_) fun rank error _ failing => ?_
  · obtain ⟨granted, same⟩ := (recordsOf_eq_ok_iff options (ranked rank)).mp made
    exact ⟨⟨fact, length_lt_of_makeRoom granted⟩, same⟩
  · rcases bind_eq_error failing with refused | ⟨⟨⟩, -, impossible⟩
    · exact premises.owns_makeRoom (fun roomy =>
        Member.makeRoom_of_unlimited (premises.unlimited roomy rank) (stores roomy rank)) refused
    · cases impossible

/-- Ranks may clean up their records where parallel ones meet. -/
theorem gatherParallel_leads {otherwise : Placement} {records : Fin size → List EdgeRecord}
    (named : ∀ rank, facts rank → ∀ record ∈ records rank, ∃ owner : Fin size,
      (meeting options otherwise).destination size record = .ok owner.val)
    (counted : premises.countable →
      Routing.Countable ((meeting options otherwise).destination size) records) :
    Leads premises.blame facts
      (fun rank => gatherParallel (members rank) options otherwise (records rank))
      (premises.blame.Pending (fun _ => ∀ rank, facts rank)
        (cleaned options members otherwise records)) := by
  -- What has met on a rank is cleaned up without any exchange.
  have sent : Leads premises.blame facts (fun rank =>
      Routing.sendRecords (members rank) (meeting options otherwise) (records rank)) _ :=
    Routing.sendRecords_leads named counted
  exact sent.after (Leads.pure _)

/-- Cleaning up adds no more than one reverse per record. -/
theorem length_everything_cleaned_le (lawful : ∀ rank, (members rank).sorter.Lawful)
    (otherwise : Placement) (records : Fin size → List EdgeRecord) :
    (everything (cleaned options members otherwise records)).length ≤
      2 * (everything records).length := by
  -- Records that have met are some of those that were sent, and each gets at most one reverse.
  have each := length_everything_le fun rank => Cleanup.length_tidy_le (lawful rank) options.mergePolicy
    options.addReverses
    (Grouping.bound ((meeting options otherwise).destination size) (everything records) rank)
  have met : (everything fun rank : Fin size =>
      Grouping.bound ((meeting options otherwise).destination size) (everything records) rank).length ≤
        (everything records).length := Routing.length_everything_bound_le _ _
  exact Nat.le_trans each (Nat.mul_le_mul_left 2 met)

/-- Ends that the records of all ranks have in common, they still have once they are cleaned up. -/
theorem forall_cleaned (lawful : ∀ rank, (members rank).sorter.Lawful) {otherwise : Placement}
    {records : Fin size → List EdgeRecord} (common : VertexId → Prop)
    (known : ∀ record ∈ everything records, common record.src ∧ common record.dst) :
    ∀ rank, ∀ record ∈ cleaned options members otherwise records rank,
      common record.src ∧ common record.dst := by
  intro rank
  -- Merging keeps the endpoints of the first record, and a reverse has the same two.
  refine Cleanup.forall_tidy (lawful rank) (fun record member => ?_) (fun first later ends => ?_)
    fun _ record ends => ⟨ends.2, ends.1⟩
  · exact known record (List.mem_of_mem_filter member)
  · rw [(EdgeRecord.ends_merge options.mergePolicy first later).1,
      (EdgeRecord.ends_merge options.mergePolicy first later).2]
    exact ends

section Owners

variable {records : Fin size → List EdgeRecord} {vertices : Fin size → List VertexId}

/-- A rank has no least vertex count only if it names the greatest word. -/
theorem vertexBound_eq_error {records : List EdgeRecord} {vertices : List VertexId} {error : Failure}
    (failing : vertexBound records vertices = .error error) :
    0xffffffffffffffff ∈ named records vertices ∧
      error = .rejected (.idTooLarge 0xffffffffffffffff) := by
  unfold vertexBound at failing
  dsimp only at failing
  -- It fails where the greatest of the ids has no word above it.
  split at failing
  · cases failing
  · rename_i most greatest
    split at failing
    · rename_i full
      cases failing
      subst full
      exact ⟨(List.max?_eq_some_iff.mp greatest).1, rfl⟩
    · cases failing

/-- Ranks may agree on the number of vertices. -/
theorem countVertices_leads
    (tooLarge : options.vertexCount = none → ∀ rank,
      0xffffffffffffffff ∈ named (records rank) (vertices rank) →
        premises.rejects rank (.idTooLarge 0xffffffffffffffff)) :
    Leads premises.blame facts
      (fun rank => countVertices (records rank) (vertices rank) options)
      (premises.blame.Pending (fun rank => facts rank ∧ Bounded options records vertices)
        fun _ => vertexTotal options records vertices) := by
  unfold countVertices vertexTotal
  cases given : options.vertexCount with
  | some count =>
    exact (Leads.pure _).mono (fun _ fact => fact) fun _ held => held.mono fun rank fact =>
      ⟨fact, fun absent => by simp [given] at absent⟩
  | none =>
    -- Without a given number a rank fails by itself if no word is left above the ids that it names.
    have bounds : Leads premises.blame facts
        (fun rank => Program.ofExcept (vertexBound (records rank) (vertices rank)))
        (premises.blame.Pending
          (fun rank => facts rank ∧
            ∀ id ∈ named (records rank) (vertices rank), id ≠ 0xffffffffffffffff)
          fun rank => leastAbove (named (records rank) (vertices rank))) := by
      refine Leads.ofExcept (fun rank bound fact made => ?_) fun rank error _ failing => ?_
      · obtain ⟨small, same⟩ := vertexBound_eq_ok_iff.mp made
        exact ⟨⟨fact, small⟩, same⟩
      · obtain ⟨great, rfl⟩ := vertexBound_eq_error failing
        exact tooLarge given rank great
    refine (bounds.after (Communicator.allReduce_max_leads _)).mono (fun _ fact => fact)
      fun _ held => held.mono fun rank all => ⟨(all rank).1, fun _ peer => (all peer).2⟩

variable (members options records) in
/-- Whether ranks can count the records that they move to the owners of given ids. -/
structure CountableGiven (partition : Partition size) : Prop where
  /-- All records can be sent to where they are cleaned up. -/
  meet : Routing.Countable
    ((meeting options (.byOwner partition options.transposed)).destination size) records
  /-- Completed records can be sent to their owners. -/
  settle : options.addReverses = true → Routing.Countable
    ((Placement.byOwner partition options.transposed).destination size)
    (cleaned options members (.byOwner partition options.transposed) records)

/-- Few records can be counted on their way to the owners of given ids. -/
theorem CountableGiven.of_few (lawful : ∀ rank, (members rank).sorter.Lawful)
    (few : 2 * (everything records).length ≤ Count.most) (partition : Partition size) :
    CountableGiven members options records partition := by
  refine ⟨.of_few (by omega), fun _ => .of_few ?_⟩
  exact Nat.le_trans (length_everything_cleaned_le lawful _ records) few

/-- A rank names the endpoints of its records. -/
theorem ends_mem_named {rank : Fin size} {record : EdgeRecord} (held : record ∈ records rank) :
    record.src ∈ named (records rank) (vertices rank) ∧
      record.dst ∈ named (records rank) (vertices rank) :=
  ⟨Numbering.mem_named.mpr (.inl ⟨record, held, .inl rfl⟩),
    Numbering.mem_named.mpr (.inl ⟨record, held, .inr rfl⟩)⟩

/-- The endpoints of what a rank hands in are vertices if every id has a word above it that is asked for. -/
theorem Bounded.ends_lt (bounded : Bounded options records vertices) {partition : Partition size}
    (count : partition.vertexCount = vertexTotal options records vertices) {rank : Fin size}
    (below : ∀ limit, options.vertexCount = some limit →
      ∀ id ∈ named (records rank) (vertices rank), id < limit) :
    ∀ record ∈ records rank, record.src < partition.vertexCount ∧ record.dst < partition.vertexCount := by
  intro record held
  -- The number of vertices was chosen above all ids that are named.
  have least := lt_vertexTotal_of_named below fun absent => bounded absent rank
  rw [count]
  exact ⟨least _ (ends_mem_named held).1, least _ (ends_mem_named held).2⟩

/-- A record has an owner as soon as its endpoints are vertices. -/
theorem exists_owner_of_ends {partition : Partition size} (transposed : Bool) {record : EdgeRecord}
    (inside : record.src < partition.vertexCount ∧ record.dst < partition.vertexCount) :
    ∃ owner : Fin size,
      (Placement.byOwner partition transposed).destination size record = .ok owner.val := by
  apply Placement.exists_destination_byOwner
  -- The major endpoint is one of the two.
  unfold EdgeRecord.major
  split
  · exact inside.2
  · exact inside.1

/-- A record has a rank to meet its parallel ones on as soon as its endpoints are vertices. -/
theorem exists_meeting_of_ends {partition : Partition size} (someone : Fin size) {record : EdgeRecord}
    (inside : record.src < partition.vertexCount ∧ record.dst < partition.vertexCount) :
    ∃ owner : Fin size, (meeting options (.byOwner partition options.transposed)).destination size record =
      .ok owner.val := by
  -- Records meet by their pairs, where every one has a rank, or on their owners.
  unfold meeting
  split
  · exact Placement.exists_destination_byPair someone record
  · exact exists_owner_of_ends options.transposed inside

variable (members options records) in
/-- Owners hold records of their own vertices only. -/
theorem owned_own (lawful : ∀ rank, (members rank).sorter.Lawful) (partition : Partition size)
    (rank : Fin size) : ∀ record ∈ owned options members records partition rank,
      (partition.spanOf rank).contains (record.major options.transposed) = true := by
  have goes : ∀ record ∈ owned options members records partition rank,
      (Placement.byOwner partition options.transposed).destination size record = .ok rank.val := by
    unfold owned
    cases adds : options.addReverses with
    | true => exact fun record member => of_decide_eq_true (List.mem_filter.mp member).2
    | false =>
      -- Without reverses records meet on their owners, and merging does not change where they belong.
      have direct : meeting options (.byOwner partition options.transposed) =
          .byOwner partition options.transposed := if_neg (by simp [adds])
      refine Cleanup.forall_tidy (lawful rank) (fun record member => ?_) (fun first later goes => ?_)
        fun added => by simp [adds] at added
      · rw [direct] at member
        exact of_decide_eq_true (List.mem_filter.mp member).2
      · obtain ⟨src, dst⟩ := EdgeRecord.ends_merge options.mergePolicy first later
        rw [Placement.destination_congr _ size _ first src dst]
        exact goes
  exact fun record member => Placement.destination_byOwner_iff.mp (goes record member)

/-- Ends that the records of all ranks have in common, they still have where they are owned. -/
theorem forall_owned (lawful : ∀ rank, (members rank).sorter.Lawful) {partition : Partition size}
    (common : VertexId → Prop)
    (known : ∀ record ∈ everything records, common record.src ∧ common record.dst) :
    ∀ rank, ∀ record ∈ owned options members records partition rank,
      common record.src ∧ common record.dst := by
  have clean : ∀ rank, ∀ record ∈ cleaned options members (.byOwner partition options.transposed) records
      rank, common record.src ∧ common record.dst := forall_cleaned lawful common known
  intro rank record member
  unfold owned at member
  -- A record that was sent on was cleaned up by its sender.
  split at member
  · obtain ⟨sender, held⟩ := mem_everything.mp (List.mem_of_mem_filter member)
    exact clean sender record held
  · exact clean rank record member

variable (members options records) in
/-- Owners hold no more records than were handed in, each with its reverse. -/
theorem length_everything_owned_le (lawful : ∀ rank, (members rank).sorter.Lawful)
    (partition : Partition size) : (everything (owned options members records partition)).length ≤
      2 * (everything records).length := by
  have clean : (everything (cleaned options members (.byOwner partition options.transposed) records)).length ≤
      2 * (everything records).length := length_everything_cleaned_le lawful _ records
  unfold owned
  dsimp only
  -- Sending records on loses some at most.
  cases options.addReverses with
  | false => exact clean
  | true => exact Nat.le_trans (Routing.length_everything_bound_le _ _) clean

/-- Ranks may move the records that they have cleaned up to their owners. -/
theorem moveOn_leads {partition : Partition size}
    (inside : (∀ rank, facts rank) → ∀ record ∈ everything records,
      record.src < partition.vertexCount ∧ record.dst < partition.vertexCount)
    (lawful : ∀ rank, (members rank).sorter.Lawful)
    (counted : premises.countable → options.addReverses = true → Routing.Countable
      ((Placement.byOwner partition options.transposed).destination size)
      (cleaned options members (.byOwner partition options.transposed) records)) :
    Leads premises.blame (fun _ => ∀ rank, facts rank)
      (fun rank => moveOn options partition (members rank)
        (cleaned options members (.byOwner partition options.transposed) records rank))
      (premises.blame.Pending (fun _ => ∀ rank, facts rank) (owned options members records partition)) := by
  unfold moveOn owned
  -- Without reverses nothing moves.
  cases adds : options.addReverses with
  | false => exact Leads.pure _
  | true =>
    simp only [if_true]
    refine (Routing.sendRecords_leads (fun rank all record member => ?_)
      fun countable => counted countable adds).mono (fun _ all => all)
        fun _ held => held.mono fun rank all => all rank
    exact exists_owner_of_ends options.transposed
      (forall_cleaned lawful (· < partition.vertexCount) (inside all) rank record member)

/-- No buffer for records is too large where all of them, with their reverses, can be addressed. -/
theorem fits_of_length_le {held : Fin size → List EdgeRecord} {number : Nat}
    (fewer : (everything held).length ≤ 2 * number)
    (fits : 2 * number * HalfEdge.cellBytes ≤ Memory.largestBuffer) :
    (everything held).length < UInt64.size ∧
      ∀ rank, (held rank).length * HalfEdge.cellBytes ≤ Memory.largestBuffer := by
  -- A cell takes 64 bytes, and the largest buffer is half of the id space.
  have buffer : 2 * number * 64 ≤ 2 ^ 63 - 1 := fits
  have word : UInt64.size = 2 ^ 64 := rfl
  refine ⟨by omega, fun rank => Nat.le_trans (Nat.mul_le_mul_right _ ?_) fits⟩
  exact Nat.le_trans (length_le_everything held rank) fewer

/-- Ranks may build a graph on the given ids. -/
theorem onGivenIds_leads (ranked : ∀ rank, (members rank).rank = rank)
    (lawful : ∀ rank, (members rank).sorter.Lawful) (someone : Fin size)
    (below : ∀ rank, facts rank → ∀ limit, options.vertexCount = some limit →
      ∀ id ∈ named (records rank) (vertices rank), id < limit)
    (tooLarge : options.vertexCount = none → ∀ rank,
      0xffffffffffffffff ∈ named (records rank) (vertices rank) →
        premises.rejects rank (.idTooLarge 0xffffffffffffffff))
    (counted : premises.countable → Bounded options records vertices →
      ∀ partition, Partition.even (vertexTotal options records vertices) size = .ok partition →
        CountableGiven members options records partition)
    (fits : premises.countable →
      2 * (everything records).length * HalfEdge.cellBytes ≤ Memory.largestBuffer) :
    ∃ (partition : Partition size) (views : Fin size → View size) (kept : Fin size → Prop),
      ((∀ rank, kept rank) → View.Built members (owned options members records partition) partition
        options.transposed options.segmentBudget views) ∧
      Leads premises.blame facts
        (fun rank => onGivenIds (members rank) (records rank) (vertices rank) options)
        (premises.blame.Pending (fun rank => (∀ rank, facts rank) ∧ kept rank)
          fun rank => ⟨views rank, .identity partition rank, partition⟩) := by
  obtain ⟨partition, shared, count⟩ := Partition.exists_even (vertexTotal options records vertices)
    (Nat.ne_of_gt someone.pos)
  -- What is stored in the end is known before anything is sent, and fits if everything can be counted.
  have stored := fun countable => fits_of_length_le
    (length_everything_owned_le members options records lawful partition) (fits countable)
  obtain ⟨views, kept, built, storing⟩ : ∃ (views : Fin size → View size) (kept : Fin size → Prop),
      ((∀ rank, kept rank) → View.Built members (owned options members records partition) partition
        options.transposed options.segmentBudget views) ∧
      Leads premises.blame (fun _ => ∀ rank, facts rank)
        (fun rank => View.build (members rank) (owned options members records partition rank) partition
          options.transposed options.segmentBudget) _ :=
    View.build_leads lawful (owned_own members options records lawful partition)
      (fun roomy => (stored (premises.countable_of_roomy roomy)).2) ranked
      fun countable => (stored countable).1
  refine ⟨partition, views, kept, built, ?_⟩
  simp only [onGivenIds_eq, ranked]
  refine (countVertices_leads tooLarge).after ?_
  simp only [shared]
  refine (Leads.pure _).after ?_
  -- From here on every rank knows that all ids that it names lie in the graph.
  refine Leads.given (fun _ fact => fact.2) fun bounded => ?_
  have inside : ∀ rank, facts rank → ∀ record ∈ records rank,
      record.src < partition.vertexCount ∧ record.dst < partition.vertexCount :=
    fun rank fact => bounded.ends_lt count (below rank fact)
  -- Parallel records meet on a rank, as their endpoints have owners.
  have met : Leads premises.blame (fun rank => facts rank ∧ Bounded options records vertices)
      (fun rank => gatherParallel (members rank) options (.byOwner partition options.transposed)
        (records rank))
      (premises.blame.Pending (fun _ => ∀ rank, facts rank)
        (cleaned options members (.byOwner partition options.transposed) records)) := by
    refine (gatherParallel_leads (fun rank fact record held => ?_) fun countable =>
      (counted countable bounded partition shared).meet).mono (fun _ fact => fact)
        fun _ held => held.mono fun _ all rank => (all rank).1
    exact exists_meeting_of_ends someone (inside rank fact.1 record held)
  refine met.after ((moveOn_leads (fun all => forall_everything fun rank => inside rank (all rank)) lawful
    fun countable adds => (counted countable bounded partition shared).settle adds).after (storing.after ?_))
  exact (Leads.pure _).mono (fun _ fact => fact) fun _ held => held.mono fun rank fact =>
    ⟨fact.1 rank, fact.2⟩

end Owners

section Numbered

variable {records : Fin size → List EdgeRecord} {vertices : Fin size → List VertexId}

variable (options members records vertices) in
/-- Whether ranks can count what they exchange for a graph on new ids. -/
structure CountableAnew : Prop where
  /-- All records can be sent to where they are cleaned up. -/
  meet : Routing.Countable ((meeting options (.byHash options.transposed)).destination size) records
  /-- All ids can be told to the ranks that number them. -/
  named : Routing.Countable (Numbering.assigner size) fun rank =>
    (named (tidied options members records rank) (vertices rank)).dedup
  /-- Relabelled records can be sent to their owners. -/
  settle : ∀ agreement, Agreed members (tidied options members records) vertices options.order
      options.transposed agreement →
    Routing.Countable ((Placement.byOwner agreement.partition options.transposed).destination size)
      (relabelled options members records agreement)

/-- Few records and listed vertices can be counted on their way to new ids. -/
theorem CountableAnew.of_few (lawful : ∀ rank, (members rank).sorter.Lawful)
    (few : 4 * (everything records).length + (everything vertices).length ≤ Count.most) :
    CountableAnew members options records vertices := by
  -- Each record has at most one reverse, and each of the two has two endpoints.
  have clean : (everything (tidied options members records)).length ≤ 2 * (everything records).length :=
    length_everything_cleaned_le lawful _ records
  have numbered : Numbering.Countable (tidied options members records) vertices :=
    .of_few (by omega)
  refine ⟨.of_few (by omega), numbered.named, fun agreement _ => .of_few ?_⟩
  have same : (everything (relabelled options members records agreement)).length ≤
      (everything (tidied options members records)).length :=
    length_everything_mono fun rank => (List.length_map _).le
  omega

/-- The endpoints of relabelled records are new ids, which have owners. -/
theorem relabelled_ends (lawful : ∀ rank, (members rank).sorter.Lawful) {agreement : Agreement size}
    (agreed : Agreed members (tidied options members records) vertices options.order options.transposed
      agreement) : ∀ rank, ∀ record ∈ relabelled options members records agreement rank,
      record.src < agreement.partition.vertexCount ∧ record.dst < agreement.partition.vertexCount := by
  intro rank record member
  obtain ⟨origin, held, rfl⟩ := List.mem_map.mp member
  have everywhere := mem_everything.mpr ⟨rank, held⟩
  -- Every endpoint is a label, and the new id of a label lies in the run of its rank.
  have labels := agreed.labels lawful
  have label : ∀ old, old = origin.src ∨ old = origin.dst →
      newOf agreement.parts old < agreement.partition.vertexCount := by
    intro old ends
    obtain ⟨owner, own⟩ := mem_everything.mp ((agreed.entries.mem_everything_owned_iff lawful).mpr
      (.inl ⟨origin, everywhere, ends⟩))
    exact Partition.lt_vertexCount_of_contains (labels.contains_of_mem_pairs (labels.mem_pairs_newOf own))
  exact ⟨label origin.src (.inl rfl), label origin.dst (.inr rfl)⟩

/-- Relabelled records have owners. -/
theorem relabelled_inside (lawful : ∀ rank, (members rank).sorter.Lawful) {agreement : Agreement size}
    (agreed : Agreed members (tidied options members records) vertices options.order options.transposed
      agreement) : ∀ rank, ∀ record ∈ relabelled options members records agreement rank,
      ∃ owner : Fin size, (Placement.byOwner agreement.partition options.transposed).destination size record =
        .ok owner.val :=
  fun rank record member =>
    exists_owner_of_ends options.transposed (relabelled_ends lawful agreed rank record member)

variable (members options records) in
/-- Owners of new ids hold no more records than were handed in, each with its reverse. -/
theorem length_everything_arrived_le (lawful : ∀ rank, (members rank).sorter.Lawful)
    (agreement : Agreement size) : (everything (arrived options members records agreement)).length ≤
      2 * (everything records).length := by
  -- Relabelling keeps the number of records, and sending loses some at most.
  have clean : (everything (tidied options members records)).length ≤ 2 * (everything records).length :=
    length_everything_cleaned_le lawful _ records
  have same : (everything (relabelled options members records agreement)).length ≤
      (everything (tidied options members records)).length :=
    length_everything_mono fun rank => (List.length_map _).le
  exact Nat.le_trans (Routing.length_everything_bound_le _ _) (Nat.le_trans same clean)

/-- Ranks can count and store what they tell each other of the ids that are left after cleaning up. -/
theorem CountableAnew.numbering (counted : CountableAnew members options records vertices)
    (lawful : ∀ rank, (members rank).sorter.Lawful)
    (fits : (2 * (everything records).length + (everything vertices).length) * HalfEdge.cellBytes ≤
      Memory.largestBuffer) : Numbering.Countable (tidied options members records) vertices := by
  refine ⟨counted.named, ?_⟩
  have clean : (everything (tidied options members records)).length ≤ 2 * (everything records).length :=
    length_everything_cleaned_le lawful _ records
  -- An entry takes less memory than an edge that is stored.
  have buffer : _ * 64 ≤ 2 ^ 63 - 1 := fits
  show _ * 16 ≤ 2 ^ 63 - 1
  omega

/-- Ranks may agree on new ids for what they have cleaned up, and relabel it. -/
theorem assignTidied_leads (ranked : ∀ rank, (members rank).rank = rank)
    (lawful : ∀ rank, (members rank).sorter.Lawful) (someone : Fin size)
    (countable : premises.countable → Numbering.Countable (tidied options members records) vertices) :
    ∃ agreement : Agreement size, Leads premises.blame (fun _ => ∀ rank, facts rank)
      (fun rank => Numbering.assign (members rank) (tidied options members records rank) (vertices rank)
        options.order options.transposed)
      (premises.blame.Pending (fun _ => Agreed members (tidied options members records) vertices
          options.order options.transposed agreement ∧ ∀ rank, facts rank)
        fun rank => (agreement.parts rank, relabelled options members records agreement rank)) := by
  -- Giving out new ids is in step for any records, these among them.
  obtain ⟨agreement, assigning⟩ : ∃ agreement, Leads premises.blame (fun _ => ∀ rank, facts rank)
      (fun rank => Numbering.assign (members rank) (tidied options members records rank) (vertices rank)
        options.order options.transposed) _ :=
    Numbering.assign_leads lawful ranked someone countable
  exact ⟨agreement, assigning.mono (fun _ all => all) fun _ held =>
    held.mono fun _ fact => ⟨fact.1, fact.2 someone⟩⟩

/-- Ranks that agree on new ids may move the relabelled records to their owners, and store them there. -/
theorem moveAnew_leads (ranked : ∀ rank, (members rank).rank = rank)
    (lawful : ∀ rank, (members rank).sorter.Lawful) (someone : Fin size) (agreement : Agreement size)
    (counted : premises.countable → CountableAnew members options records vertices)
    (fits : premises.countable →
      2 * (everything records).length * HalfEdge.cellBytes ≤ Memory.largestBuffer) :
    ∃ (views : Fin size → View size) (kept : Fin size → Prop),
      ((∀ rank, kept rank) →
        Agreed members (tidied options members records) vertices options.order options.transposed
            agreement ∧
          View.Built members (arrived options members records agreement) agreement.partition
            options.transposed options.segmentBudget views) ∧
      Leads premises.blame (fun _ => Agreed members (tidied options members records) vertices
          options.order options.transposed agreement ∧ ∀ rank, facts rank)
        (fun rank => moveAnew options (members rank)
          (agreement.parts rank, relabelled options members records agreement rank))
        (premises.blame.Pending (fun rank => (∀ rank, facts rank) ∧ kept rank)
          (keptAnew agreement views)) := by
  -- What arrives is bounded by what was handed in, whatever the agreement is.
  have stored := fun granted => fits_of_length_le
    (length_everything_arrived_le members options records lawful agreement) (fits granted)
  obtain ⟨views, kept, built, storing⟩ : ∃ (views : Fin size → View size) (kept : Fin size → Prop),
      ((∀ rank, kept rank) → View.Built members (arrived options members records agreement)
        agreement.partition options.transposed options.segmentBudget views) ∧
      Leads premises.blame (fun _ => Agreed members (tidied options members records) vertices options.order
          options.transposed agreement ∧ ∀ rank, facts rank)
        (fun rank => View.build (members rank) (arrived options members records agreement rank)
          agreement.partition options.transposed options.segmentBudget) _ :=
    View.build_leads lawful (Placement.contains_of_bound agreement.partition options.transposed _)
      (fun roomy => (stored (premises.countable_of_roomy roomy)).2) ranked
      fun granted => (stored granted).1
  refine ⟨views, fun rank => kept rank ∧ Agreed members (tidied options members records) vertices
    options.order options.transposed agreement,
    fun all => ⟨(all someone).2, built fun rank => (all rank).1⟩, ?_⟩
  simp only [moveAnew_eq]
  -- From here on every rank knows that all new ids are shared out.
  refine Leads.given (fun _ fact => fact.1) fun agreed => ?_
  have moved : Leads premises.blame (fun _ => Agreed members (tidied options members records) vertices
        options.order options.transposed agreement ∧ ∀ rank, facts rank)
      (fun rank => Routing.sendRecords (members rank) (.byOwner agreement.partition options.transposed)
        (relabelled options members records agreement rank)) _ :=
    Routing.sendRecords_leads (fun rank _ => relabelled_inside lawful agreed rank)
      fun granted => (counted granted).settle agreement agreed
  refine (moved.mono (fun _ fact => fact) fun _ held => held.mono fun _ all => all someone).after
    (storing.after ((Leads.pure _).mono (fun _ fact => fact) fun _ held => held.mono fun rank fact => ?_))
  exact ⟨(fact.1 someone).2, fact.2, (fact.1 someone).1⟩

/-- Ranks may build a graph on new ids. -/
theorem onNewIds_leads (ranked : ∀ rank, (members rank).rank = rank)
    (lawful : ∀ rank, (members rank).sorter.Lawful) (someone : Fin size)
    (counted : premises.countable → CountableAnew members options records vertices)
    (fits : premises.countable →
      (2 * (everything records).length + (everything vertices).length) * HalfEdge.cellBytes ≤
        Memory.largestBuffer) :
    ∃ (agreement : Agreement size) (views : Fin size → View size) (kept : Fin size → Prop),
      ((∀ rank, kept rank) →
        Agreed members (tidied options members records) vertices options.order options.transposed
            agreement ∧
          View.Built members (arrived options members records agreement) agreement.partition
            options.transposed options.segmentBudget views) ∧
      Leads premises.blame facts
        (fun rank => onNewIds (members rank) (records rank) (vertices rank) options)
        (premises.blame.Pending (fun rank => (∀ rank, facts rank) ∧ kept rank)
          (keptAnew agreement views)) := by
  -- The agreement is fixed first, as all later steps are about it.
  obtain ⟨agreement, assigned⟩ := assignTidied_leads ranked lawful someone
    fun granted => (counted granted).numbering lawful (fits granted)
  obtain ⟨views, kept, built, moving⟩ := moveAnew_leads ranked lawful someone agreement counted
    fun granted => Nat.le_trans (Nat.mul_le_mul_right _ (Nat.le_add_right _ _)) (fits granted)
  refine ⟨agreement, views, kept, built, ?_⟩
  simp only [onNewIds_eq]
  exact (gatherParallel_leads (fun rank _ record _ => exists_meeting options someone record)
    fun granted => (counted granted).meet).after (assigned.after moving)

end Numbered

end DistGraph.Construction
