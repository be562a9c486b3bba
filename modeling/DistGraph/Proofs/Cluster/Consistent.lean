import DistGraph.Cluster.Mailbox
import DistGraph.Proofs.Cluster.Stages

/-! What holds between ranks and mailboxes under every schedule: who is where, and what is on its way. -/

namespace DistGraph.Cluster

variable [Payloads] {size : Nat} {ε α : Type}

/-- Whether a rank has ended its work and is leaving. -/
def System.Gone (system : System size ε α) (rank : Fin size) : Prop :=
  -- Ends of mailboxes may still be open.
  (system.activity rank).outcome?.isSome

/-- A rank has gone if it has turned to leaving. -/
@[simp] theorem System.gone_turn_self {system : System size ε α} {rank : Fin size}
    {activity : Activity size ε α} :
    (system.turn rank activity).Gone rank ↔ activity.outcome?.isSome := by
  rw [System.Gone, System.turn_activity_self]

/-- Whether others have gone does not change with what a rank turns to. -/
@[simp] theorem System.gone_turn_of_ne {system : System size ε α} {rank other : Fin size}
    {activity : Activity size ε α} (different : other ≠ rank) :
    (system.turn rank activity).Gone other ↔ system.Gone other := by
  rw [System.Gone, System.turn_activity_of_ne _ _ _ different, System.Gone]

/-- Why an exchange that the ranks do not all take part in fails on a rank. -/
inductive Cause (programs : Vector (Program size ε α) size) (gone : Fin size → Prop)
    (rank : Fin size) (completed : Nat) (call : Call) (posted opened : Fin size → Nat) :
    ExchangeError → Prop where
  /-- A peer was found gone; of two ranks it is certain that the peer does not exchange. -/
  | left {peer : Fin size} (left : gone peer)
      (certain : size ≤ 2 → ((stage programs completed).get peer).parcel? completed rank = none) :
      Cause programs gone rank completed call posted opened (.peerLeft peer)
  /-- The message of a peer was opened and refused, all own messages being posted. -/
  | refused {peer : Fin size} {parcel : Parcel} {error : ExchangeError}
      (arrived : ((stage programs completed).get peer).parcel? completed rank = some parcel)
      (refusal : parcel.accept peer completed call = .error error)
      (taken : opened peer = completed + 1) (sent : ∀ receiver, posted receiver = completed + 1) :
      Cause programs gone rank completed call posted opened error

/-- How a rank that leaves has come to its outcome. -/
inductive Ended (programs : Vector (Program size ε α) size) (gone : Fin size → Prop)
    (rank : Fin size) (completed : Nat) (posted opened : Fin size → Nat) : Except ε α → Prop where
  /-- Its work was done. -/
  | done {value : α} (stands : (stage programs completed).get rank = .done value) :
      Ended programs gone rank completed posted opened (.ok value)
  /-- Its work failed by itself. -/
  | failed {error : ε} (stands : (stage programs completed).get rank = .fail error) :
      Ended programs gone rank completed posted opened (.error error)
  /-- It wanted to exchange, but the ranks did not meet. -/
  | broken {call : Call} {sent : Vector call.Item size} {fault : ExchangeError → ε}
      {next : Vector call.Item size → Program size ε α} {error : ExchangeError}
      (stands : (stage programs completed).get rank = .exchange call sent fault next)
      (apart : ∀ items, ¬ Meet (stage programs completed) call items)
      (cause : Cause programs gone rank completed call posted opened error) :
      Ended programs gone rank completed posted opened (.error (fault error))

/-- What a rank is at, told by its stage and by the messages it has posted and opened. -/
inductive Fits (programs : Vector (Program size ε α) size) (gone : Fin size → Prop)
    (rank : Fin size) (completed : Nat) (posted opened : Fin size → Nat) :
    Activity size ε α → Prop where
  /-- It posts its messages in rank order and has opened nothing yet. -/
  | sending {call : Call} {sent : Vector call.Item size} {fault : ExchangeError → ε}
      {next : Vector call.Item size → Program size ε α} {count : Nat}
      (stands : (stage programs completed).get rank = .exchange call sent fault next)
      (within : count ≤ size)
      (posts : ∀ peer, posted peer = completed + if peer.val < count then 1 else 0)
      (opens : ∀ peer, opened peer = completed) :
      Fits programs gone rank completed posted opened (.send call sent fault next count)
  /-- It has posted all messages and opens those of its peers in rank order. -/
  | receiving {call : Call} {sent : Vector call.Item size} {fault : ExchangeError → ε}
      {next : Vector call.Item size → Program size ε α} {count : Nat}
      {received : Vector call.Item count}
      (stands : (stage programs completed).get rank = .exchange call sent fault next)
      (within : count ≤ size) (posts : ∀ peer, posted peer = completed + 1)
      (opens : ∀ peer, opened peer = completed + if peer.val < count then 1 else 0)
      (taken : ∀ (peer : Fin size) (inside : peer.val < count), ∃ items fault next,
        (stage programs completed).get peer = .exchange call items fault next ∧
          received[peer.val] = items.get rank) :
      Fits programs gone rank completed posted opened (.receive call fault next count received)
  /-- It leaves, and at least the messages of completed exchanges are posted and opened. -/
  | leaving {outcome : Except ε α} {closed : Nat} (within : closed ≤ size + size)
      (posts : ∀ peer, completed ≤ posted peer) (opens : ∀ peer, completed ≤ opened peer)
      (ended : Ended programs gone rank completed posted opened outcome) :
      Fits programs gone rank completed posted opened (.leave outcome closed)

/-- The messages on the way are those that are posted and not opened, in order. -/
def Letters (programs : Vector (Program size ε α) size) (sender receiver : Fin size)
    (opened posted : Nat) (messages : List Parcel) : Prop :=
  -- The message of an exchange is the one that the sender's stage calls for.
  opened + messages.length = posted ∧ ∀ place parcel, messages[place]? = some parcel →
    ((stage programs (opened + place)).get sender).parcel? (opened + place) receiver = some parcel

/-- What holds of a system that ranks have reached from their programs. -/
structure Consistent (programs : Vector (Program size ε α) size) (system : System size ε α)
    (posted opened : Fin size → Fin size → Nat) : Prop where
  /-- All ranks met in every exchange that some rank has completed. -/
  met : ∀ rank earlier, earlier < system.completed rank →
    ∃ call sent, Meet (stage programs earlier) call sent
  /-- Every rank is where its stage and its messages say. -/
  fits : ∀ rank, Fits programs system.Gone rank (system.completed rank) (posted rank) (opened rank)
    (system.activity rank)
  /-- Every mailbox holds what is on its way. -/
  letters : ∀ sender receiver, Letters programs sender receiver (opened receiver sender)
    (posted sender receiver) (system.mailbox sender receiver)

section Bookkeeping

variable {programs : Vector (Program size ε α) size} {later : Fin size → Prop}
  {rank sender receiver : Fin size} {completed opened posted : Nat} {messages : List Parcel}

/-- A rank that has gone does not come back, so no reason for an outcome is lost. -/
theorem Fits.mono (gone : Fin size → Prop) {posts opens : Fin size → Nat}
    {activity : Activity size ε α}
    (stays : ∀ peer, gone peer → later peer)
    (fits : Fits programs gone rank completed posts opens activity) :
    Fits programs later rank completed posts opens activity := by
  -- Only a peer that was found gone is mentioned at all.
  cases fits with
  | sending stands within posts opens => exact .sending stands within posts opens
  | receiving stands within posts opens taken => exact .receiving stands within posts opens taken
  | leaving within posts opens ended =>
    refine .leaving within posts opens ?_
    cases ended with
    | done stands => exact .done stands
    | failed stands => exact .failed stands
    | broken stands apart cause =>
      refine .broken stands apart ?_
      cases cause with
      | left left certain => exact .left (stays _ left) certain
      | refused arrived refusal taken sent => exact .refused arrived refusal taken sent

/-- How a rank starts on the program of its stage. -/
theorem Fits.ofStage {gone : Fin size → Prop} (program : Program size ε α)
    (stands : (stage programs completed).get rank = program) :
    Fits programs gone rank completed (fun _ => completed) (fun _ => completed)
      (Activity.ofProgram program) := by
  -- A rank at the start of a stage has posted and opened just what the earlier exchanges took.
  cases program with
  | done value => exact .leaving (by omega) (by simp) (by simp) (.done stands)
  | fail error => exact .leaving (by omega) (by simp) (by simp) (.failed stands)
  | exchange call sent fault next => exact .sending stands (by omega) (by simp) (by simp)

/-- Posting a message puts it behind all others. -/
theorem Letters.post {parcel : Parcel} (letters : Letters programs sender receiver opened posted messages)
    (made : ((stage programs posted).get sender).parcel? posted receiver = some parcel) :
    Letters programs sender receiver opened (posted + 1) (messages ++ [parcel]) := by
  obtain ⟨count, known⟩ := letters
  refine ⟨by simp; omega, ?_⟩
  intro place other found
  -- The new message takes the place right after those on the way.
  rcases Nat.lt_trichotomy place messages.length with before | last | beyond
  · rw [List.getElem?_append_left before] at found
    exact known place other found
  · subst last
    simp only [List.getElem?_concat_length, Option.some.injEq] at found
    rw [count, ← found]
    exact made
  · rw [List.getElem?_eq_none (by simp; omega)] at found
    simp at found

/-- Opening a message takes the oldest one, which is that of the next exchange. -/
theorem Letters.open {parcel : Parcel}
    (letters : Letters programs sender receiver opened posted (parcel :: messages)) :
    ((stage programs opened).get sender).parcel? opened receiver = some parcel ∧
      Letters programs sender receiver (opened + 1) posted messages := by
  obtain ⟨count, known⟩ := letters
  -- The message at the front is the first of those that are not opened, and the rest moves up.
  refine ⟨known 0 parcel rfl, by simp at count; omega, ?_⟩
  intro place other found
  have shifted := known (place + 1) other (by simpa using found)
  rwa [show opened + (place + 1) = opened + 1 + place by omega] at shifted

/-- Of two ranks one can fail in an exchange only on account of the other. -/
theorem Cause.of_other {gone : Fin size → Prop} {call : Call} {posts opens : Fin size → Nat}
    {error : ExchangeError} {sent : Vector call.Item size} {fault : ExchangeError → ε}
    {next : Vector call.Item size → Program size ε α} (pair : size ≤ 2)
    (stands : (stage programs completed).get rank = .exchange call sent fault next)
    (cause : Cause programs gone rank completed call posts opens error) :
    ∃ peer, peer ≠ rank ∧
      ((gone peer ∧ error = .peerLeft peer ∧
          ((stage programs completed).get peer).parcel? completed rank = none) ∨
        ∃ parcel, ((stage programs completed).get peer).parcel? completed rank = some parcel ∧
          parcel.accept peer completed call = .error error ∧
          opens peer = completed + 1 ∧ ∀ receiver, posts receiver = completed + 1) := by
  -- A rank exchanges itself, and does not refuse its own message.
  cases cause with
  | @left peer left certain =>
    refine ⟨peer, ?_, .inl ⟨left, rfl, certain pair⟩⟩
    rintro rfl
    have nothing := certain pair
    rw [stands] at nothing
    simp [Program.parcel?] at nothing
  | @refused peer parcel _ arrived refusal taken sent =>
    refine ⟨peer, ?_, .inr ⟨parcel, arrived, refusal, taken, sent⟩⟩
    rintro rfl
    rw [stands, Program.parcel?, Option.some.injEq] at arrived
    rw [Parcel.accept_eq_ok_iff.mpr arrived.symm] at refusal
    simp at refusal

/-- A rank that ends at an exchange has failed in it. -/
theorem Ended.of_exchange {gone : Fin size → Prop} {call : Call} {posts opens : Fin size → Nat}
    {outcome : Except ε α} {sent : Vector call.Item size} {fault : ExchangeError → ε}
    {next : Vector call.Item size → Program size ε α}
    (ended : Ended programs gone rank completed posts opens outcome)
    (stands : (stage programs completed).get rank = .exchange call sent fault next) :
    (∀ items, ¬ Meet (stage programs completed) call items) ∧
      ∃ error, Cause programs gone rank completed call posts opens error := by
  -- A program at an exchange is neither done nor has it failed yet.
  cases ended with
  | done ended => simp [stands] at ended
  | failed ended => simp [stands] at ended
  | broken ended apart cause =>
    rw [stands] at ended
    cases ended
    exact ⟨apart, _, cause⟩

end Bookkeeping

section Reached

variable {programs : Vector (Program size ε α) size} {system : System size ε α}
  {posted opened : Fin size → Fin size → Nat} {rank peer : Fin size}

/-- Every system starts consistent, with nothing posted and nothing opened. -/
theorem Consistent.start (programs : Vector (Program size ε α) size) :
    Consistent programs (.start programs) (fun _ _ => 0) (fun _ _ => 0) where
  met rank earlier before := by simp [System.start] at before
  fits rank := Fits.ofStage (programs.get rank) rfl
  letters sender receiver := ⟨rfl, fun place parcel found => by simp [System.start] at found⟩

/-- A rank that sends is at an exchange, of which it has posted messages in rank order. -/
theorem Consistent.at_send {call : Call} {sent : Vector call.Item size} {fault : ExchangeError → ε}
    {next : Vector call.Item size → Program size ε α} {count : Nat}
    (kept : Consistent programs system posted opened)
    (busy : system.activity rank = .send call sent fault next count) :
    ¬ system.Gone rank ∧
      (stage programs (system.completed rank)).get rank = .exchange call sent fault next ∧
      count ≤ size ∧
      (∀ peer, posted rank peer = system.completed rank + if peer.val < count then 1 else 0) ∧
      ∀ peer, opened rank peer = system.completed rank := by
  have fits := kept.fits rank
  rw [busy] at fits
  -- A rank that sends fits the system in one way only.
  obtain ⟨stands, within, posts, opens⟩ | ⟨⟩ | ⟨⟩ := fits
  exact ⟨by simp [System.Gone, busy, Activity.outcome?], stands, within, posts, opens⟩

/-- A rank that receives is at an exchange, of which it has posted all messages and opened some in rank
order. -/
theorem Consistent.at_receive {call : Call} {fault : ExchangeError → ε}
    {next : Vector call.Item size → Program size ε α} {count : Nat} {received : Vector call.Item count}
    (kept : Consistent programs system posted opened)
    (busy : system.activity rank = .receive call fault next count received) :
    ¬ system.Gone rank ∧
      (∃ sent, (stage programs (system.completed rank)).get rank = .exchange call sent fault next) ∧
      count ≤ size ∧ (∀ peer, posted rank peer = system.completed rank + 1) ∧
      (∀ peer, opened rank peer = system.completed rank + if peer.val < count then 1 else 0) ∧
      ∀ (peer : Fin size) (inside : peer.val < count), ∃ items fault next,
        (stage programs (system.completed rank)).get peer = .exchange call items fault next ∧
          received[peer.val] = items.get rank := by
  have fits := kept.fits rank
  rw [busy] at fits
  -- A rank that receives fits the system in one way only.
  obtain ⟨⟩ | ⟨stands, within, posts, opens, taken⟩ | ⟨⟩ := fits
  exact ⟨by simp [System.Gone, busy, Activity.outcome?], ⟨_, stands⟩, within, posts, opens, taken⟩

/-- A peer whose mailbox is empty has posted nothing since the exchanges that are completed. -/
theorem Consistent.posted_eq_of_empty {call : Call} {fault : ExchangeError → ε}
    {next : Vector call.Item size → Program size ε α} {count : Nat} {received : Vector call.Item count}
    (kept : Consistent programs system posted opened)
    (busy : system.activity rank = .receive call fault next count received) (inside : count < size)
    (nothing : system.mailbox ⟨count, inside⟩ rank = []) :
    posted ⟨count, inside⟩ rank = system.completed rank := by
  obtain ⟨_, _, _, _, opens, _⟩ := kept.at_receive busy
  -- As many messages wait as have been posted but not opened.
  have letters := (kept.letters ⟨count, inside⟩ rank).1
  have unopened : opened rank ⟨count, inside⟩ = system.completed rank := by simp [opens]
  rw [nothing, List.length_nil] at letters
  omega

/-- A rank that is gone has posted and opened all messages of the exchanges that it completed, and its
last stage explains its outcome. -/
theorem Consistent.ended_of_gone (kept : Consistent programs system posted opened)
    (left : system.Gone peer) :
    ∃ outcome, (system.activity peer).outcome? = some outcome ∧
      (∀ other, system.completed peer ≤ posted peer other) ∧
      (∀ other, system.completed peer ≤ opened peer other) ∧
      Ended programs system.Gone peer (system.completed peer) (posted peer) (opened peer) outcome := by
  have fits := kept.fits peer
  -- Only a rank that leaves has gone.
  cases found : system.activity peer with
  | send | receive => simp [System.Gone, found, Activity.outcome?] at left
  | leave outcome closed =>
    rw [found] at fits
    obtain ⟨⟩ | ⟨⟩ | ⟨_, posts, opens, ended⟩ := fits
    exact ⟨outcome, rfl, posts, opens, ended⟩

/-- A rank that is gone was not needed: all that met the others there are behind it. -/
theorem Consistent.ahead_of_meet {call : Call} {sent : Fin size → Vector call.Item size}
    (kept : Consistent programs system posted opened) (left : system.Gone peer)
    (meet : Meet (stage programs (system.completed rank)) call sent) :
    system.completed rank < system.completed peer := by
  -- Up to that exchange all ranks meet, so the peer cannot have ended before it.
  by_contra behind
  have meets : ∃ call sent, Meet (stage programs (system.completed peer)) call sent := by
    rcases Nat.lt_or_eq_of_le (Nat.le_of_not_lt behind) with before | same
    · exact kept.met rank _ before
    · exact ⟨call, sent, same ▸ meet⟩
  obtain ⟨made, items, met⟩ := meets
  obtain ⟨fault, next, stands⟩ := met peer
  obtain ⟨outcome, _, _, _, ended⟩ := kept.ended_of_gone left
  exact (ended.of_exchange stands).1 items met

/-- A rank that finds a peer gone with a message outstanding has not met all others. -/
theorem Consistent.apart_of_gone {call : Call} {sent : Vector call.Item size}
    {fault : ExchangeError → ε} {next : Vector call.Item size → Program size ε α}
    (kept : Consistent programs system posted opened) (here : ¬ system.Gone rank)
    (left : system.Gone peer)
    (stands : (stage programs (system.completed rank)).get rank = .exchange call sent fault next)
    (late : opened peer rank ≤ system.completed rank ∨ posted peer rank ≤ system.completed rank) :
    (∀ items, ¬ Meet (stage programs (system.completed rank)) call items) ∧ (size ≤ 2 →
      ((stage programs (system.completed rank)).get peer).parcel? (system.completed rank) rank = none) := by
  obtain ⟨outcome, _, posts, opens, ended⟩ := kept.ended_of_gone left
  -- A peer that is ahead would have posted and opened the messages of this exchange.
  have behind : ¬ system.completed rank < system.completed peer := by
    have := posts rank
    have := opens rank
    omega
  have apart : ∀ made items, ¬ Meet (stage programs (system.completed rank)) made items :=
    fun made items meet => behind (kept.ahead_of_meet left meet)
  refine ⟨apart call, fun pair => ?_⟩
  cases ends : (stage programs (system.completed rank)).get peer with
  | done value => rfl
  | fail error => rfl
  | exchange other items otherFault otherNext =>
    -- The peer wanted the same exchange and failed in it, but only on account of this rank.
    exfalso
    have level : system.completed peer = system.completed rank := by
      rcases Nat.lt_or_eq_of_le (Nat.le_of_not_lt behind) with before | same
      · obtain ⟨made, sent, meet⟩ := kept.met rank _ before
        exact absurd (kept.ahead_of_meet left meet) (Nat.lt_irrefl _)
      · exact same
    rw [level] at ended
    obtain ⟨_, error, cause⟩ := ended.of_exchange ends
    obtain ⟨third, away, why⟩ := cause.of_other pair ends
    have other_one : third = rank := by
      have apart_from : peer ≠ rank := fun same => here (same ▸ left)
      omega
    subst other_one
    rcases why with ⟨gone, -⟩ | ⟨_, _, _, taken, sent⟩
    · exact here gone
    · have := sent third
      omega

end Reached

end DistGraph.Cluster
