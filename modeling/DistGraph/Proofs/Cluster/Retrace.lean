import DistGraph.Proofs.Cluster.Twins

/-! A schedule of ranks can be retraced by ranks that do the same, with the same outcomes. -/

namespace DistGraph

variable [Payloads] {size : Nat} {ε α : Type}

/-- Whether two ranks are at the same, whatever they do after the exchange that they take part in. -/
inductive Activity.Alike : Activity size ε α → Activity size ε α → Prop where
  /-- Both have sent as many items of the same exchange. -/
  | send (call : Call) (sent : Vector call.Item size) (fault : ExchangeError → ε)
      (next later : Vector call.Item size → Program size ε α) (count : Nat) :
      Alike (.send call sent fault next count) (.send call sent fault later count)
  /-- Both have received the same items. -/
  | receive (call : Call) (fault : ExchangeError → ε)
      (next later : Vector call.Item size → Program size ε α) (count : Nat)
      (received : Vector call.Item count) :
      Alike (.receive call fault next count received) (.receive call fault later count received)
  /-- Both leave with the same outcome. -/
  | leave (outcome : Except ε α) (closed : Nat) : Alike (.leave outcome closed) (.leave outcome closed)

namespace Activity.Alike

variable {activity other : Activity size ε α} (alike : activity.Alike other)

include alike

/-- Ranks at the same leave with the same outcome. -/
theorem outcome?_eq : activity.outcome? = other.outcome? := by
  cases alike <;> rfl

/-- They have left together. -/
theorem hasLeft_eq : activity.hasLeft = other.hasLeft := by
  cases alike <;> rfl

/-- They have closed the same mailboxes from their peers. -/
theorem holdsInbox_eq (peer : Fin size) : activity.holdsInbox peer = other.holdsInbox peer := by
  cases alike <;> rfl

/-- They have closed the same mailboxes to their peers. -/
theorem holdsOutbox_eq (peer : Fin size) : activity.holdsOutbox peer = other.holdsOutbox peer := by
  cases alike <;> rfl

end Activity.Alike

/-- Programs that are about to do the same start alike. -/
theorem Program.Alike.ofProgram {program other : Program size ε α} (alike : program.Alike other) :
    (Activity.ofProgram program).Alike (Activity.ofProgram other) := by
  -- What a rank starts on is told by what it is about to do.
  cases alike with
  | done value => exact .leave (.ok value) 0
  | fail error => exact .leave (.error error) 0
  | exchange call sent fault next later => exact .send call sent fault next later 0

namespace Cluster

/-- Whether all ranks of two systems are at the same, with the same messages on their way. -/
structure System.Alike (system other : System size ε α) : Prop where
  /-- The ranks are at the same. -/
  activity : ∀ rank, (system.activity rank).Alike (other.activity rank)
  /-- The ranks have completed as many exchanges. -/
  completed : system.completed = other.completed
  /-- The mailboxes hold the same. -/
  mailbox : system.mailbox = other.mailbox

namespace System.Alike

variable {system other later : System size ε α} {rank : Fin size}

/-- Ranks that turn to the same stay alike. -/
theorem turn (alike : system.Alike other) {activity twin : Activity size ε α} (same : activity.Alike twin) :
    (system.turn rank activity).Alike (other.turn rank twin) := by
  refine ⟨fun peer => ?_, alike.completed, alike.mailbox⟩
  unfold System.turn
  dsimp only
  -- The rank that turns is alike by what it turns to, and all others are as before.
  split
  · exact same
  · exact alike.activity peer

/-- Mailboxes that are filled alike stay alike. -/
theorem refill (alike : system.Alike other) (sender receiver : Fin size) (messages : List Parcel) :
    (system.refill sender receiver messages).Alike (other.refill sender receiver messages) := by
  refine ⟨alike.activity, alike.completed, ?_⟩
  unfold System.refill
  rw [alike.mailbox]

/-- Ranks that go on with programs that are about to do the same stay alike. -/
theorem proceed (alike : system.Alike other) {program twin : Program size ε α} (same : program.Alike twin) :
    (system.proceed rank program).Alike (other.proceed rank twin) := by
  -- Both count one more exchange.
  have turned : (system.turn rank (.ofProgram program)).Alike (other.turn rank (.ofProgram twin)) :=
    alike.turn same.ofProgram
  refine ⟨turned.activity, ?_, turned.mailbox⟩
  unfold System.proceed
  rw [alike.completed]

/-- What is sent arrives, or bounces, in both systems. -/
theorem send (alike : system.Alike other) {activity twin : Activity size ε α} (same : activity.Alike twin)
    (peer : Fin size) (parcel : Parcel) (fault : ExchangeError → ε) :
    (system.send rank peer parcel fault activity).Alike (other.send rank peer parcel fault twin) := by
  unfold System.send
  rw [← (alike.activity peer).holdsInbox_eq, ← alike.mailbox]
  -- A message arrives in both systems as long as the peer can still take it.
  split
  · exact (alike.refill ..).turn same
  · exact alike.turn (.leave ..)

/-- What can be received in a system can be received in the other. -/
theorem exists_receive (alike : system.Alike other) {peer : Fin size} {call : Call}
    {fault : ExchangeError → ε} {after twin : call.Item → Activity size ε α}
    (same : ∀ item, (after item).Alike (twin item))
    (moved : system.receive rank peer call fault after = some later) :
    ∃ otherLater, other.receive rank peer call fault twin = some otherLater ∧ later.Alike otherLater := by
  unfold System.receive at moved ⊢
  rw [← (alike.activity peer).holdsOutbox_eq, ← alike.completed, ← alike.mailbox]
  cases waiting : system.mailbox peer rank with
  | cons parcel rest =>
    -- The same message is first in line, and is accepted or refused for the same reason.
    simp only [waiting] at moved ⊢
    cases accepted : parcel.accept peer (system.completed rank) call with
    | ok item =>
      rw [accepted] at moved
      cases moved
      exact ⟨_, rfl, (alike.refill ..).turn (same item)⟩
    | error error =>
      rw [accepted] at moved
      cases moved
      exact ⟨_, rfl, (alike.refill ..).turn (.leave ..)⟩
  | nil =>
    -- Without a message the rank goes on only if its peer is gone.
    simp only [waiting] at moved ⊢
    split at moved
    · cases moved
    · rename_i closed
      cases moved
      exact ⟨_, if_neg closed, alike.turn (.leave ..)⟩

/-- A rank makes the same moves in systems that are alike, if it goes on alike after the exchanges that it
completes. -/
theorem exists_move (alike : system.Alike other) (moved : system.move rank = some later)
    (proceeds : ∀ (call : Call) fault next later (received : Vector call.Item size),
      system.activity rank = .receive call fault next size received →
      other.activity rank = .receive call fault later size received →
        (next received).Alike (later received)) :
    ∃ otherLater, other.move rank = some otherLater ∧ later.Alike otherLater := by
  have here := alike.activity rank
  unfold System.move at moved ⊢
  -- Each activity leaves its twin only one shape.
  cases busy : system.activity rank with
  | leave outcome closed =>
    rw [busy] at here moved
    cases twin : other.activity rank <;> rw [twin] at here <;> cases here
    dsimp only at moved ⊢
    split at moved
    · cases moved
      exact ⟨_, if_pos ‹_›, alike.turn (.leave ..)⟩
    · cases moved
  | send call sent fault next count =>
    rw [busy] at here moved
    cases twin : other.activity rank <;> rw [twin] at here <;> cases here
    rw [← alike.completed]
    dsimp only at moved ⊢
    split at moved
    · cases moved
      exact ⟨_, dif_pos ‹_›, alike.send (.send ..) ..⟩
    · cases moved
      exact ⟨_, dif_neg ‹_›, alike.turn (.receive ..)⟩
  | receive call fault next count received =>
    rw [busy] at here moved
    cases twin : other.activity rank <;> rw [twin] at here <;> cases here
    -- A rank that receives may go on in its own way, which is what the last hypothesis is about.
    rename_i onwards
    dsimp only at moved ⊢
    split at moved
    · rw [dif_pos ‹_›]
      exact alike.exists_receive (fun item => .receive ..) moved
    · -- All items are there, so that the program goes on after its exchange.
      rw [dif_neg ‹_›]
      split at moved
      · rename_i full
        subst full
        cases moved
        exact ⟨_, dif_pos rfl, alike.proceed (proceeds call fault next onwards received busy twin)⟩
      · cases moved

end System.Alike

section Twins

variable {reaches : (Fin size → Except ε α) → Prop} {programs others : Fin size → Program size ε α}
  {system other last : System size ε α} {posted opened otherPosted otherOpened : Fin size → Fin size → Nat}

/-- Twins in systems that are alike can follow the same schedule. -/
theorem exists_follow (twins : Twins reaches programs others) (alike : system.Alike other)
    (kept : Consistent (Vector.ofFn programs) system posted opened)
    (otherKept : Consistent (Vector.ofFn others) other otherPosted otherOpened) {schedule : List (Fin size)}
    (followed : system.follow schedule = some last) :
    ∃ otherLast, other.follow schedule = some otherLast ∧ last.Alike otherLast := by
  -- By induction on the schedule, along which both systems stay consistent.
  induction schedule generalizing system other posted opened otherPosted otherOpened with
  | nil =>
    cases followed
    exact ⟨other, rfl, alike⟩
  | cons rank schedule ih =>
    obtain ⟨middle, moved, onwards⟩ := Option.bind_eq_some_iff.mp followed
    have proceeds : ∀ (call : Call) fault next later (received : Vector call.Item size),
        system.activity rank = .receive call fault next size received →
        other.activity rank = .receive call fault later size received →
          (next received).Alike (later received) := by
      intro call fault next later received busy twin
      -- Both have received what all ranks sent in the stage, which leads to the next one.
      obtain ⟨sent, meet, delivers, stands⟩ := kept.meet_of_received busy
      obtain ⟨otherSent, otherMeet, otherDelivers, otherStands⟩ := otherKept.meet_of_received twin
      have ahead := twins.stage_alike (system.completed rank + 1) rank
      rw [stage_succ_meet meet stands, alike.completed, stage_succ_meet otherMeet otherStands] at ahead
      rw [← delivers, ← otherDelivers] at ahead
      exact ahead
    obtain ⟨otherMiddle, otherMoved, same⟩ := alike.exists_move moved proceeds
    obtain ⟨_, _, laterKept⟩ := kept.move moved
    obtain ⟨_, _, otherLaterKept⟩ := otherKept.move otherMoved
    obtain ⟨otherLast, otherFollowed, ended⟩ := ih same laterKept otherLaterKept onwards
    exact ⟨otherLast, Option.bind_eq_some_iff.mpr ⟨otherMiddle, otherMoved, otherFollowed⟩, ended⟩

/-- What ranks do under a schedule their twins do under it as well, with the same outcomes. -/
theorem Run.exists_twin (run : Run (Vector.ofFn programs)) (twins : Twins reaches programs others) :
    ∃ other : Run (Vector.ofFn others), other.schedule = run.schedule ∧
      ∀ rank, other.outcome rank = run.outcome rank := by
  -- Both start alike, and every move is made by both.
  have alike : (System.start (Vector.ofFn programs)).Alike (System.start (Vector.ofFn others)) :=
    ⟨fun rank => (twins.stage_alike 0 rank).ofProgram, rfl, rfl⟩
  obtain ⟨last, followed, same⟩ := exists_follow twins alike (Consistent.start _) (Consistent.start _)
    run.followed
  refine ⟨⟨run.schedule, last, followed, fun rank => ?_⟩, rfl, fun rank => ?_⟩
  · rw [← (same.activity rank).hasLeft_eq]
    exact run.finished rank
  · exact (same.activity rank).outcome?_eq.symm

end Twins

/-- Whether ranks and others come to the same outcomes under the same schedules. -/
def RunAlike (programs others : Fin size → Program size ε α) : Prop :=
  ∀ schedule outcomes,
    (∃ run : Run (Vector.ofFn programs), run.schedule = schedule ∧ run.outcome = outcomes) ↔
      ∃ run : Run (Vector.ofFn others), run.schedule = schedule ∧ run.outcome = outcomes

/-- Twins come to the same outcomes under the same schedules. -/
theorem runAlike_of_twins {reaches : (Fin size → Except ε α) → Prop}
    {programs others : Fin size → Program size ε α} (twins : Twins reaches programs others) :
    RunAlike programs others := by
  intro schedule outcomes
  -- A run of either is retraced by the other.
  constructor
  · rintro ⟨run, rfl, rfl⟩
    obtain ⟨other, same, ends⟩ := run.exists_twin twins
    exact ⟨other, same, funext ends⟩
  · rintro ⟨run, rfl, rfl⟩
    obtain ⟨other, same, ends⟩ := run.exists_twin twins.symm
    exact ⟨other, same, funext ends⟩

end Cluster

end DistGraph
