import DistGraph.Proofs.Cluster.Trailing
import DistGraph.Proofs.Routing.Apart

/-! Ranks with less memory exchange the same as ranks with more, until they run out of it. -/

namespace DistGraph

variable {size : Nat} {α : Type}

/-- Whether a limit is no greater than another one, no limit being the greatest. -/
def Memory.Within (limit other : Option UInt64) : Prop :=
  ∀ most, other = some most → ∃ less, limit = some less ∧ less ≤ most

/-- Whatever is granted within a limit is granted within a greater one. -/
theorem Memory.Within.reserve_eq_ok {limit other : Option UInt64} (within : Within limit other)
    {bytes length : Nat} (granted : reserve limit bytes length = .ok ()) :
    reserve other bytes length = .ok () := by
  -- The smaller limit grants it, and the greater one is no less.
  obtain ⟨small, limited⟩ := reserve_eq_ok_iff.mp granted
  refine reserve_eq_ok_iff.mpr ⟨small, fun most given => ?_⟩
  obtain ⟨less, own, below⟩ := within most given
  exact Nat.le_trans (limited less own) (UInt64.le_iff_toNat_le.mp below)

/-- Whether a failure tells that memory has run out. -/
def Failure.Short (failure : Failure) : Prop :=
  ∃ requested available, failure = .graph (.outOfMemory requested available)

/-- Whether a failure is one of communication. -/
def Failure.OfPeers (failure : Failure) : Prop :=
  ∃ error, failure = .comm error

/-- Whether a program does what another one does until it may run out of memory. -/
abbrev Program.Curbed [Payloads] (program other : Program size Failure α) : Prop :=
  Trails Failure.Short Failure.Broken program other

/-- A buffer is granted to a rank with less memory as to one with more, or memory has run out. -/
theorem Member.makeRoom_curbed [Payloads] {member : Member size} {memory : Option UInt64}
    (within : Memory.Within member.memory memory) (bytes length : Nat) :
    (Program.ofExcept (member.makeRoom bytes length) : Program size Failure Unit).Curbed
      (.ofExcept ({ member with memory := memory }.makeRoom bytes length)) := by
  unfold makeRoom
  cases granted : Memory.reserve member.memory bytes length with
  | ok value =>
    rw [within.reserve_eq_ok granted]
    exact .done ()
  | error error =>
    refine .short ?_ _
    -- There is only one way in which a buffer is refused.
    unfold Memory.reserve at granted
    dsimp only at granted
    split at granted
    · cases granted
    · cases granted
      exact ⟨_, _, rfl⟩

namespace Communicator

variable [Payloads]

/-- Whether a program asks for no memory and fails in its exchanges as those of a communicator do. -/
abbrev Plain (program : Program size Failure α) : Prop :=
  Program.Trails (fun _ => False) Failure.OfPeers program program

/-- An operation on the graph that asks for no memory is curbed by none. -/
theorem Plain.curbed {program : Program size Failure α} (plain : Plain program) :
    (program.mapError Failure.ofGraph).Curbed (program.mapError Failure.ofGraph) := by
  -- What is told of a failed exchange in an operation on the graph is that the protocol was broken.
  refine plain.mapError (fun _ nothing => nothing.elim) ?_
  rintro _ ⟨error, rfl⟩
  exact ⟨error, rfl⟩

/-- A single exchange asks for no memory. -/
theorem issue_plain {call : Call} (sent : Vector call.Item size) : Plain (Program.issue call sent) :=
  .issue sent fun error => ⟨error, rfl⟩

/-- Exchanging counts asks for no memory. -/
theorem allToAll_plain (counts : List Int32) :
    Plain (allToAll counts : Program size Failure (List Int32)) := by
  -- With another number of counts it fails at once.
  unfold allToAll
  split
  · exact (issue_plain _).bind fun received => .pure _
  · exact .fail _

/-- Exchanging items asks for no memory, as their room is made before. -/
theorem allToAllV_plain (tag : Payloads.Tag) (items : List (Payloads.Value tag))
    (sendCounts : List Int32) (room : Nat) (recvCounts : List Int32) :
    Plain (allToAllV tag items sendCounts room recvCounts :
      Program size Failure (List (Payloads.Value tag))) := by
  unfold allToAllV
  split
  · split
    · refine (Program.Trails.ofExcept (Failure.ofDefect (Count.totals 0 sendCounts))).bind fun _ => ?_
      -- The blocks are cut before anything is sent.
      split
      · exact .fail _
      · exact (issue_plain _).bind fun received => .ofExcept _
    · exact .fail _
  · exact .fail _

/-- Gathering values asks for no memory. -/
theorem allGather_plain (tag : Payloads.Tag) (value : Payloads.Value tag) :
    Plain (allGather tag value : Program size Failure (Vector (Payloads.Value tag) size)) :=
  issue_plain _

/-- Folding gathered values asks for no memory. -/
theorem fold_plain (tag : Payloads.Tag)
    (combine : Payloads.Value tag → Payloads.Value tag → Except Defect (Payloads.Value tag))
    (value : Payloads.Value tag) :
    Plain (fold tag combine value : Program size Failure (Payloads.Value tag)) := by
  -- Every rank folds what it has gathered by itself.
  refine (allGather_plain tag value).bind fun values => ?_
  split
  · exact .pure value
  · exact .ofExcept _

end Communicator

namespace Routing

variable {self : Member size} {memory : Option UInt64} (within : Memory.Within self.memory memory)

include within

section Generic

variable [Payloads] (tag : Payloads.Tag)

/-- Groups change ranks alike until there is no buffer for what is received. -/
theorem sendGroups_curbed (sent : Grouped (Payloads.Value tag)) :
    (sendGroups self tag sent).Curbed (sendGroups { self with memory := memory } tag sent) := by
  -- The buffer for what is received is the only step that the limit has a say in.
  refine (Communicator.allToAll_plain sent.counts).curbed.bind fun counts => ?_
  refine (Program.Trails.ofExcept (Failure.ofDefect (Count.total counts))).bind fun room => ?_
  refine (Member.makeRoom_curbed within (Payloads.bytes tag) room.toNat).bind fun _ => ?_
  exact (Communicator.allToAllV_plain tag _ _ _ _).curbed.bind fun items => .pure _

/-- Items change ranks alike until there is no buffer for what is received. -/
theorem send_curbed (destination : Payloads.Value tag → Except Failure Nat)
    (items : List (Payloads.Value tag)) : (send self tag destination items).Curbed
      (send { self with memory := memory } tag destination items) :=
  (Program.Trails.ofExcept (Grouping.group size destination items)).bind fun sent =>
    sendGroups_curbed within tag sent

/-- Answers go back alike until there is no buffer for them. -/
theorem sendBack_curbed (answers : Grouped (Payloads.Value tag)) (expected : List Int32) :
    (sendBack self tag answers expected).Curbed
      (sendBack { self with memory := memory } tag answers expected) := by
  refine (Program.Trails.ofExcept (Failure.ofDefect (Count.total expected))).bind fun room => ?_
  refine (Member.makeRoom_curbed within (Payloads.bytes tag) room.toNat).bind fun _ => ?_
  exact (Communicator.allToAllV_plain tag _ _ _ _).curbed

end Generic

/-- Records change ranks alike until there is no buffer for what is received. -/
theorem sendRecords_curbed (placement : Placement) (records : List EdgeRecord) :
    (sendRecords self placement records).Curbed
      (sendRecords { self with memory := memory } placement records) :=
  (send_curbed within Wire.record (placement.destination size) records).bind fun received =>
    .pure received.items

end Routing

end DistGraph
