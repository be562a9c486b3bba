import DistGraph.Proofs.Cluster.Apart
import DistGraph.Proofs.Routing.InStep

/-! The exchange that a rank waits for when it communicates, before it is known what the others do. -/

namespace DistGraph

variable {size : Nat} {α : Type}

/-- Whether a failure tells that the ranks did not take part alike. -/
def Failure.Broken (failure : Failure) : Prop :=
  ∃ cause, failure = .graph (.protocolBroken cause)

/-- An exchange in the middle of an operation on the graph breaks the protocol if it fails. -/
theorem Program.issue_waits [Payloads] (call : Call) (sent : Vector call.Item size) :
    ((Program.issue call sent).mapError Failure.ofGraph).Waits call Failure.Broken :=
  ⟨sent, _, _, rfl, fun error => ⟨error, rfl⟩⟩

/-- What follows an exchange in the middle of an operation on the graph begins after it. -/
theorem Program.issue_begins [Payloads] {β : Type} {call : Call} {calls : List Call}
    (sent : Vector call.Item size)
    {later : Vector call.Item size → Program size Failure β}
    (begins : ∀ received, (later received).Begins calls) :
    ((Program.issue call sent).mapError Failure.ofGraph >>= later).Begins (call :: calls) :=
  .inr ⟨sent, _, _, rfl, begins⟩

namespace Communicator

/-- A rank that gathers values waits for those of the others. -/
theorem allGather_waits [Payloads] (tag : Payloads.Tag) (value : Payloads.Value tag) :
    ((allGather tag value : Program size Failure _).mapError Failure.ofGraph).Waits (.gather tag)
      Failure.Broken :=
  Program.issue_waits (.gather tag) _

variable [Payloads] (tag : Payloads.Tag)
  (combine : Payloads.Value tag → Payloads.Value tag → Except Defect (Payloads.Value tag))
  (value : Payloads.Value tag)

/-- A rank that combines values gathers them first. -/
theorem fold_waits :
    ((fold tag combine value : Program size Failure _).mapError Failure.ofGraph).Waits (.gather tag)
      Failure.Broken := by
  rw [fold_mapError]
  exact (allGather_waits tag value).bind _

/-- What follows when values are combined begins after they are gathered. -/
theorem fold_begins {β : Type} {calls : List Call}
    {later : Payloads.Value tag → Program size Failure β}
    (begins : ∀ combined, (later combined).Begins calls) :
    ((fold tag combine value).mapError Failure.ofGraph >>= later).Begins (.gather tag :: calls) := by
  rw [fold_mapError, bind_assoc]
  exact Program.issue_begins _ fun values => .ofExcept _ begins

end Communicator

namespace Routing

section Generic

variable [Payloads] {self : Member size} {tag : Payloads.Tag}

/-- A rank that sends groups tells their numbers first. -/
theorem sendGroups_waits {sent : Grouped (Payloads.Value tag)} (shape : sent.counts.length = size) :
    (sendGroups self tag sent).Waits .counts Failure.Broken := by
  -- The counts make the first exchange, whatever follows.
  have first : ((Communicator.allToAll sent.counts : Program size Failure _).mapError
      Failure.ofGraph).Waits .counts Failure.Broken := by
    rw [Communicator.allToAll, dif_pos shape, Program.bind_eq, Program.mapError_bind]
    exact (Program.issue_waits .counts _).bind _
  exact first.bind _

variable {destination : Payloads.Value tag → Except Failure Nat} {items : List (Payloads.Value tag)}

/-- A rank that has grouped what it sends waits to tell the numbers. -/
theorem send_waits (few : items.length ≤ Count.most)
    (goes : ∀ item ∈ items, ∃ owner : Fin size, destination item = .ok owner.val) :
    (send self tag destination items).Waits .counts Failure.Broken := by
  -- Grouping succeeds, and leaves one group for each rank.
  have grouped := Grouping.group_eq_ok_iff.mpr ⟨goes, fun owner : Fin size =>
    Nat.le_trans (List.length_filter_le _ _) few, rfl⟩
  have shape : (Grouped.ofGroups fun owner : Fin size =>
      Grouping.bound destination items owner).counts.length = size := by
    simp
  exact .ofExcept grouped (sendGroups_waits shape)

/-- A rank that sends anything tells numbers first, if it comes to that. -/
theorem send_begins : (send self tag destination items).Begins [.counts] := by
  refine .ofExcept (Grouping.group size destination items) fun sent => ?_
  -- With groups for another number of ranks it fails before it communicates.
  by_cases shape : sent.counts.length = size
  · exact (sendGroups_waits shape).begins
  · refine .inl ⟨.graph (.protocolBroken (.listLength size sent.counts.length)), ?_⟩
    rw [sendGroups, Communicator.allToAll, dif_neg shape]
    rfl

end Generic

section Records

variable {self : Member size} {placement : Placement} {records : List EdgeRecord}

/-- A rank that has grouped its records waits to tell the numbers. -/
theorem sendRecords_waits (few : records.length ≤ Count.most)
    (goes : ∀ record ∈ records, ∃ owner : Fin size, placement.destination size record = .ok owner.val) :
    (sendRecords self placement records).Waits .counts Failure.Broken := by
  have sent : (send self Wire.record (placement.destination size) records).Waits .counts
      Failure.Broken := send_waits few goes
  exact sent.bind _

/-- A rank that sends records tells numbers first, if it comes to that. -/
theorem sendRecords_begins : (sendRecords self placement records).Begins [.counts] :=
  send_begins.bind _

end Records

end Routing

end DistGraph
