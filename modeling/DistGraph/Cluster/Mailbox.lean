import DistGraph.Program

/-! Ranks that run side by side, told one message or one departure at a time. -/

namespace DistGraph

variable [Payloads] {size : Nat} {ε α : Type}

/-- What a rank is at between two of its moves. -/
inductive Activity (size : Nat) (ε α : Type) where
  /-- It sends the items of an exchange, those for the first `count` ranks being sent. -/
  | send (call : Call) (sent : Vector call.Item size) (fault : ExchangeError → ε)
      (next : Vector call.Item size → Program size ε α) (count : Nat)
  /-- It takes in the items of an exchange, those of the first `count` ranks being there. -/
  | receive (call : Call) (fault : ExchangeError → ε)
      (next : Vector call.Item size → Program size ε α) (count : Nat)
      (received : Vector call.Item count)
  /-- It leaves with an outcome, the first `closed` of its ends of mailboxes being closed. -/
  | leave (outcome : Except ε α) (closed : Nat)

namespace Activity

/-- How a rank starts on a program. -/
def ofProgram : Program size ε α → Activity size ε α
  -- A rank whose work has ended does nothing but leave.
  | .done value => .leave (.ok value) 0
  | .fail error => .leave (.error error) 0
  | .exchange call sent fault next => .send call sent fault next 0

/-- Whether a rank still holds its end of the mailbox to a peer. -/
def holdsOutbox (activity : Activity size ε α) (peer : Fin size) : Bool :=
  -- A rank that leaves closes the mailboxes to its peers first, in rank order.
  match activity with
  | .leave _ closed => closed ≤ peer.val
  | .send .. | .receive .. => true

/-- Whether a rank still holds its end of the mailbox from a peer. -/
def holdsInbox (activity : Activity size ε α) (peer : Fin size) : Bool :=
  -- The mailboxes from its peers are closed after those to them.
  match activity with
  | .leave _ closed => closed ≤ size + peer.val
  | .send .. | .receive .. => true

/-- Whether a rank has closed all ends that it held. -/
def hasLeft (activity : Activity size ε α) : Bool :=
  -- It held one end to and one end from every rank, itself included.
  match activity with
  | .leave _ closed => size + size ≤ closed
  | .send .. | .receive .. => false

/-- The outcome of a rank that leaves. -/
def outcome? : Activity size ε α → Option (Except ε α)
  -- The outcome is settled before the first end is closed.
  | .leave outcome _ => some outcome
  | .send .. | .receive .. => none

end Activity

namespace Cluster

/-- All ranks and what is in the mailboxes between them. -/
structure System (size : Nat) (ε α : Type) where
  /-- What every rank is at. -/
  activity : Fin size → Activity size ε α
  /-- How many exchanges every rank has completed. -/
  completed : Fin size → Nat
  /-- The messages from a sender to a receiver, the oldest first. -/
  mailbox : (sender receiver : Fin size) → List Parcel

namespace System

/-- The system in which every rank starts on its program. -/
def start (programs : Vector (Program size ε α) size) : System size ε α where
  activity rank := .ofProgram (programs.get rank)
  completed _ := 0
  mailbox _ _ := []

/-- The system in which a rank has turned to something else. -/
def turn (system : System size ε α) (rank : Fin size) (activity : Activity size ε α) :
    System size ε α :=
  -- Other ranks go on with what they are at.
  { system with activity := fun other => if other = rank then activity else system.activity other }

section Turn

variable (system : System size ε α) (rank : Fin size) (activity : Activity size ε α)

/-- The rank is at what it has turned to. -/
@[simp] theorem turn_activity_self : (system.turn rank activity).activity rank = activity := if_pos rfl

/-- Other ranks are still at what they were at. -/
@[simp] theorem turn_activity_of_ne {other : Fin size} (different : other ≠ rank) :
    (system.turn rank activity).activity other = system.activity other := if_neg different

/-- A rank that turns to something else has completed no exchange by that. -/
@[simp] theorem turn_completed : (system.turn rank activity).completed = system.completed := rfl

/-- It leaves all messages where they are. -/
@[simp] theorem turn_mailbox : (system.turn rank activity).mailbox = system.mailbox := rfl

end Turn

/-- The system with other messages from a sender to a receiver. -/
def refill (system : System size ε α) (sender receiver : Fin size) (messages : List Parcel) :
    System size ε α :=
  -- Every ordered pair of ranks has a mailbox of its own.
  { system with mailbox := fun s r =>
      if s = sender ∧ r = receiver then messages else system.mailbox s r }

section Refill

variable (system : System size ε α) (sender receiver : Fin size) (messages : List Parcel)

/-- Messages tell nothing of what ranks are at. -/
@[simp] theorem refill_activity :
    (system.refill sender receiver messages).activity = system.activity := rfl

/-- Messages complete no exchange by themselves. -/
@[simp] theorem refill_completed :
    (system.refill sender receiver messages).completed = system.completed := rfl

/-- Just the one mailbox is filled anew. -/
@[simp] theorem refill_mailbox (s r : Fin size) : (system.refill sender receiver messages).mailbox s r =
    if s = sender ∧ r = receiver then messages else system.mailbox s r := rfl

end Refill

/-- The system in which a rank goes on after an exchange. -/
def proceed (system : System size ε α) (rank : Fin size) (program : Program size ε α) :
    System size ε α :=
  -- The completed exchange is counted.
  { system.turn rank (.ofProgram program) with
    completed := fun other =>
      if other = rank then system.completed other + 1 else system.completed other }

section Proceed

variable (system : System size ε α) (rank : Fin size) (program : Program size ε α)

/-- A rank that goes on turns to its next step. -/
@[simp] theorem proceed_activity : (system.proceed rank program).activity =
    (system.turn rank (.ofProgram program)).activity := rfl

/-- Going on needs no more messages. -/
@[simp] theorem proceed_mailbox : (system.proceed rank program).mailbox = system.mailbox := rfl

/-- The rank has completed one exchange more. -/
@[simp] theorem proceed_completed_self :
    (system.proceed rank program).completed rank = system.completed rank + 1 := if_pos rfl

/-- Other ranks complete their exchanges by themselves. -/
@[simp] theorem proceed_completed_of_ne {other : Fin size} (different : other ≠ rank) :
    (system.proceed rank program).completed other = system.completed other := if_neg different

end Proceed

/-- The system after a send, which fails if the receiver has closed the mailbox. -/
def send (system : System size ε α) (rank peer : Fin size) (parcel : Parcel)
    (fault : ExchangeError → ε) (after : Activity size ε α) : System size ε α :=
  -- Mailboxes have room for any number of messages, so a send never waits.
  if (system.activity peer).holdsInbox rank then
    (system.refill rank peer (system.mailbox rank peer ++ [parcel])).turn rank after
  else system.turn rank (.leave (.error (fault (.peerLeft peer))) 0)

/-- The system after a receipt, unless there is nothing to receive yet. -/
def receive (system : System size ε α) (rank peer : Fin size) (call : Call)
    (fault : ExchangeError → ε) (after : call.Item → Activity size ε α) :
    Option (System size ε α) :=
  -- Messages stay readable after their sender has closed the mailbox.
  match system.mailbox peer rank with
  | parcel :: later =>
    let emptied := system.refill peer rank later
    match parcel.accept peer (system.completed rank) call with
    | .ok item => some (emptied.turn rank (after item))
    | .error error => some (emptied.turn rank (.leave (.error (fault error)) 0))
  | [] =>
    if (system.activity peer).holdsOutbox rank then none
    else some (system.turn rank (.leave (.error (fault (.peerLeft peer))) 0))

/-- The system after the next move of a rank, unless the rank has to wait or has left. -/
def move (system : System size ε α) (rank : Fin size) : Option (System size ε α) :=
  -- A rank sends to all ranks in order before it receives from all ranks in order.
  match system.activity rank with
  | .send call sent fault next count =>
    if inside : count < size then
      let parcel : Parcel := ⟨system.completed rank, call, sent[count]⟩
      some (system.send rank ⟨count, inside⟩ parcel fault
        (.send call sent fault next (count + 1)))
    else some (system.turn rank (.receive call fault next 0 #v[]))
  | .receive call fault next count received =>
    if inside : count < size then
      system.receive rank ⟨count, inside⟩ call fault fun item =>
        .receive call fault next (count + 1) (received.push item)
    else if full : count = size then some (system.proceed rank (next (full ▸ received)))
    else none
  | .leave outcome closed =>
    if closed < size + size then some (system.turn rank (.leave outcome (closed + 1))) else none

/-- The system after moves of the ranks on a schedule, unless one of them cannot move. -/
def follow (system : System size ε α) (schedule : List (Fin size)) : Option (System size ε α) :=
  -- A schedule names the rank of every move.
  schedule.foldlM move system

/-- A schedule of no moves leads nowhere else. -/
@[simp] theorem follow_nil (system : System size ε α) : system.follow [] = some system := rfl

/-- A schedule is followed from what its first move leads to. -/
@[simp] theorem follow_cons_eq_some_iff {system final : System size ε α} {mover : Fin size}
    {schedule : List (Fin size)} : system.follow (mover :: schedule) = some final ↔
      ∃ later, system.move mover = some later ∧ later.follow schedule = some final := by
  simp [follow, Option.bind_eq_some_iff]

/-- A schedule is followed on from where another one has led. -/
theorem follow_append {system later : System size ε α} {schedule more : List (Fin size)}
    (followed : system.follow schedule = some later) :
    system.follow (schedule ++ more) = later.follow more := by
  unfold follow at followed ⊢
  rw [List.foldlM_append, followed]
  rfl

/-- Whether a schedule leads from one system to another. -/
def Reaches (system later : System size ε α) : Prop :=
  -- Any order of moves counts.
  ∃ schedule, system.follow schedule = some later

/-- Whether all ranks have left. -/
def Finished (system : System size ε α) : Prop :=
  -- No rank can move any more.
  ∀ rank, (system.activity rank).hasLeft = true

end System

end Cluster

end DistGraph
