import DistGraph.Proofs.Cluster.Consistent
import Mathlib.Logic.Function.Basic

/-! Every move of a rank keeps ranks and mailboxes consistent. -/

namespace DistGraph.Cluster

variable [Payloads] {size : Nat} {ε α : Type} {programs : Vector (Program size ε α) size}
  {system later : System size ε α} {posted opened : Fin size → Fin size → Nat}
  {rank : Fin size}

/-- What a rank does in a move, and which system that leads to. -/
inductive System.Moves (system : System size ε α) (rank : Fin size) : System size ε α → Prop where
  /-- It puts its message to a peer into a mailbox that is open. -/
  | post {call : Call} {sent : Vector call.Item size} {fault : ExchangeError → ε}
      {next : Vector call.Item size → Program size ε α} {count : Nat}
      (busy : system.activity rank = .send call sent fault next count) (inside : count < size)
      (stays : (system.activity ⟨count, inside⟩).holdsInbox rank = true) :
      Moves system rank ((system.refill rank ⟨count, inside⟩
        (system.mailbox rank ⟨count, inside⟩ ++ [⟨system.completed rank, call, sent[count]⟩])).turn
          rank (.send call sent fault next (count + 1)))
  /-- It finds that the peer has closed the mailbox. -/
  | bounce {call : Call} {sent : Vector call.Item size} {fault : ExchangeError → ε}
      {next : Vector call.Item size → Program size ε α} {count : Nat}
      (busy : system.activity rank = .send call sent fault next count) (inside : count < size)
      (closed : (system.activity ⟨count, inside⟩).holdsInbox rank = false) :
      Moves system rank (system.turn rank (.leave (.error (fault (.peerLeft count))) 0))
  /-- It has sent to all peers and turns to its receipts. -/
  | listen {call : Call} {sent : Vector call.Item size} {fault : ExchangeError → ε}
      {next : Vector call.Item size → Program size ε α} {count : Nat}
      (busy : system.activity rank = .send call sent fault next count) (sentAll : size ≤ count) :
      Moves system rank (system.turn rank (.receive call fault next 0 #v[]))
  /-- It accepts the oldest message of a peer. -/
  | accept {call : Call} {fault : ExchangeError → ε}
      {next : Vector call.Item size → Program size ε α} {count : Nat}
      {received : Vector call.Item count} {parcel : Parcel} {rest : List Parcel} {item : call.Item}
      (busy : system.activity rank = .receive call fault next count received) (inside : count < size)
      (waiting : system.mailbox ⟨count, inside⟩ rank = parcel :: rest)
      (accepted : parcel.accept count (system.completed rank) call = .ok item) :
      Moves system rank ((system.refill ⟨count, inside⟩ rank rest).turn rank
        (.receive call fault next (count + 1) (received.push item)))
  /-- It refuses the oldest message of a peer. -/
  | refuse {call : Call} {fault : ExchangeError → ε}
      {next : Vector call.Item size → Program size ε α} {count : Nat}
      {received : Vector call.Item count} {parcel : Parcel} {rest : List Parcel}
      {error : ExchangeError}
      (busy : system.activity rank = .receive call fault next count received) (inside : count < size)
      (waiting : system.mailbox ⟨count, inside⟩ rank = parcel :: rest)
      (refused : parcel.accept count (system.completed rank) call = .error error) :
      Moves system rank ((system.refill ⟨count, inside⟩ rank rest).turn rank
        (.leave (.error (fault error)) 0))
  /-- It finds that a peer has left without sending. -/
  | miss {call : Call} {fault : ExchangeError → ε}
      {next : Vector call.Item size → Program size ε α} {count : Nat}
      {received : Vector call.Item count}
      (busy : system.activity rank = .receive call fault next count received) (inside : count < size)
      (nothing : system.mailbox ⟨count, inside⟩ rank = [])
      (closed : (system.activity ⟨count, inside⟩).holdsOutbox rank = false) :
      Moves system rank (system.turn rank (.leave (.error (fault (.peerLeft count))) 0))
  /-- It goes on with what it has received from all peers. -/
  | proceed {call : Call} {fault : ExchangeError → ε}
      {next : Vector call.Item size → Program size ε α} {received : Vector call.Item size}
      (busy : system.activity rank = .receive call fault next size received) :
      Moves system rank (system.proceed rank (next received))
  /-- It closes one more end of a mailbox. -/
  | close {outcome : Except ε α} {closed : Nat} (busy : system.activity rank = .leave outcome closed)
      (more : closed < size + size) :
      Moves system rank (system.turn rank (.leave outcome (closed + 1)))

/-- A message is left with its peer, or bounces off the mailbox that the peer has closed. -/
theorem System.Moves.of_send {call : Call} {sent : Vector call.Item size} {fault : ExchangeError → ε}
    {next : Vector call.Item size → Program size ε α} {count : Nat}
    (busy : system.activity rank = .send call sent fault next count) (inside : count < size) :
    system.Moves rank (system.send rank ⟨count, inside⟩ ⟨system.completed rank, call, sent[count]⟩ fault
      (.send call sent fault next (count + 1))) := by
  unfold System.send
  split
  · rename_i stays
    exact .post busy inside stays
  · rename_i closed
    exact .bounce busy inside (by simpa using closed)

/-- From a peer there is a message to accept or refuse, nothing yet, or never any. -/
theorem System.Moves.of_receive {call : Call} {fault : ExchangeError → ε}
    {next : Vector call.Item size → Program size ε α} {count : Nat} {received : Vector call.Item count}
    (busy : system.activity rank = .receive call fault next count received) (inside : count < size)
    (moved : (system.receive rank ⟨count, inside⟩ call fault fun item =>
      .receive call fault next (count + 1) (received.push item)) = some later) :
    system.Moves rank later := by
  unfold System.receive at moved
  split at moved
  · rename_i parcel rest waiting
    dsimp only at moved
    split at moved
    · rename_i item accepted
      cases moved
      exact .accept busy inside waiting accepted
    · rename_i error refused
      cases moved
      exact .refuse busy inside waiting refused
  · rename_i nothing
    -- A peer that still holds its end may send yet, so that the rank has to wait.
    split at moved
    · simp at moved
    · rename_i closed
      cases moved
      exact .miss busy inside nothing (by simpa using closed)

/-- A rank makes no other moves. -/
theorem System.Moves.of_move (moved : system.move rank = some later) : system.Moves rank later := by
  unfold System.move at moved
  -- What a rank does next is told by what it is at.
  cases busy : system.activity rank with
  | send call sent fault next count =>
    simp only [busy] at moved
    split at moved
    · rename_i inside
      cases moved
      exact .of_send busy inside
    · rename_i beyond
      cases moved
      exact .listen busy (Nat.le_of_not_lt beyond)
  | receive call fault next count received =>
    simp only [busy] at moved
    split at moved
    · rename_i inside
      exact .of_receive busy inside moved
    · -- With something received from every peer the rank goes on.
      split at moved
      · rename_i full
        subst full
        cases moved
        exact .proceed busy
      · simp at moved
  | leave outcome closed =>
    simp only [busy] at moved
    split at moved
    · rename_i more
      cases moved
      exact .close busy more
    · simp at moved

/-- A move changes only the rank that makes it and the mailboxes. -/
theorem System.Moves.other {other : Fin size} (moves : system.Moves rank later)
    (different : other ≠ rank) :
    later.activity other = system.activity other ∧ later.completed other = system.completed other := by
  cases moves <;> simp [different]

/-- What is left to show of a move that changes one rank and the messages that it posts and opens. -/
theorem Consistent.turned (kept : Consistent programs system posted opened) (rank : Fin size)
    (posts opens : Fin size → Nat) {later : System size ε α}
    (activities : ∀ other, other ≠ rank → later.activity other = system.activity other)
    (counts : ∀ other, other ≠ rank → later.completed other = system.completed other)
    (stays : system.Gone rank → later.Gone rank)
    (met : ∀ earlier, earlier < later.completed rank →
      ∃ call sent, Meet (stage programs earlier) call sent)
    (fits : Fits programs later.Gone rank (later.completed rank) posts opens (later.activity rank))
    (letters : ∀ sender receiver, Letters programs sender receiver
      (Function.update opened rank opens receiver sender)
      (Function.update posted rank posts sender receiver) (later.mailbox sender receiver)) :
    Consistent programs later (Function.update posted rank posts)
      (Function.update opened rank opens) where
  met other := by
    by_cases same : other = rank
    · subst same; exact met
    · rw [counts other same]; exact kept.met other
  fits other := by
    by_cases same : other = rank
    · subst same; simpa using fits
    · -- Another rank only ever learns that the rank has gone.
      have stays : ∀ peer, system.Gone peer → later.Gone peer := by
        intro peer gone
        by_cases same : peer = rank
        · subst same; exact stays gone
        · unfold System.Gone; rw [activities peer same]; exact gone
      simp only [Function.update_of_ne same, activities other same, counts other same]
      exact (kept.fits other).mono _ stays
  letters := letters

/-- A rank that turns to something else leaves all messages where they are. -/
theorem Consistent.turn {activity : Activity size ε α}
    (kept : Consistent programs system posted opened)
    (stays : system.Gone rank → activity.outcome?.isSome)
    (fits : Fits programs (system.turn rank activity).Gone rank (system.completed rank)
      (posted rank) (opened rank) activity) :
    Consistent programs (system.turn rank activity) posted opened := by
  -- Its counts of messages are set to what they are.
  have turned : Consistent programs (system.turn rank activity)
      (Function.update posted rank (posted rank)) (Function.update opened rank (opened rank)) :=
    kept.turned rank (posted rank) (opened rank)
      (fun other different => by simp [different]) (fun _ _ => rfl)
      (fun gone => by simpa using stays gone) (kept.met rank) (by simpa using fits)
      (by simpa using kept.letters)
  simpa using turned

/-- The counts of a rank after one more message to or from a peer. -/
def oneMore (counts : Fin size → Nat) (peer : Fin size) : Fin size → Nat :=
  -- The counts of all other peers stay.
  Function.update counts peer (counts peer + 1)

omit [Payloads] in
/-- A count goes up by one for the peer alone. -/
@[simp] theorem oneMore_apply (counts : Fin size → Nat) (peer other : Fin size) :
    oneMore counts peer other = counts other + if other = peer then 1 else 0 := by
  by_cases same : other = peer
  · subst same; simp [oneMore]
  · simp [oneMore, same]

omit [Payloads] in
/-- Counts that go up in rank order have gone up for one rank more. -/
theorem oneMore_upTo {counts : Fin size → Nat} {base count : Nat} (inside : count < size)
    (upTo : ∀ peer, counts peer = base + if peer.val < count then 1 else 0) (peer : Fin size) :
    oneMore counts ⟨count, inside⟩ peer = base + if peer.val < count + 1 then 1 else 0 := by
  -- The peer that is next is the first one that was not counted.
  by_cases last : peer = ⟨count, inside⟩
  · subst last; simp [upTo]
  · have : peer.val ≠ count := fun same => last (Fin.ext same)
    rw [oneMore_apply, upTo, if_neg last]
    split <;> split <;> omega

/-- Posting to a peer keeps all mailboxes in order. -/
theorem Consistent.letters_post {parcel : Parcel} {peer : Fin size}
    (kept : Consistent programs system posted opened)
    (made : ((stage programs (posted rank peer)).get rank).parcel? (posted rank peer) peer =
      some parcel) (sender receiver : Fin size) :
    Letters programs sender receiver (opened receiver sender)
      (Function.update posted rank (oneMore (posted rank) peer) sender receiver)
      ((system.refill rank peer (system.mailbox rank peer ++ [parcel])).mailbox sender receiver) := by
  have known := kept.letters sender receiver
  -- Just the mailbox from the rank to the peer is filled.
  by_cases sends : sender = rank
  · subst sends
    by_cases receives : receiver = peer
    · subst receives
      simpa using known.post made
    · simpa [receives] using known
  · simpa [sends] using known

/-- Opening the oldest message of a peer keeps all mailboxes in order. -/
theorem Consistent.letters_open {parcel : Parcel} {peer : Fin size} {rest : List Parcel}
    (kept : Consistent programs system posted opened)
    (waiting : system.mailbox peer rank = parcel :: rest) (sender receiver : Fin size) :
    Letters programs sender receiver
      (Function.update opened rank (oneMore (opened rank) peer) receiver sender)
      (posted sender receiver) ((system.refill peer rank rest).mailbox sender receiver) := by
  have known := kept.letters sender receiver
  -- Just the mailbox from the peer to the rank is emptied by one.
  by_cases receives : receiver = rank
  · subst receives
    by_cases sends : sender = peer
    · subst sends
      rw [waiting] at known
      simpa using known.open.2
    · simpa [sends] using known
  · simpa [receives] using known

/-- A rank that has closed an end of a mailbox has gone. -/
theorem System.gone_of_closed {peer : Fin size}
    (closed : (system.activity peer).holdsInbox rank = false ∨
      (system.activity peer).holdsOutbox rank = false) : system.Gone peer := by
  -- Only a rank that leaves closes anything.
  unfold System.Gone
  cases found : system.activity peer with
  | send | receive => simp [found, Activity.holdsInbox, Activity.holdsOutbox] at closed
  | leave outcome closed => rfl

/-- A rank that gives up an exchange leaves with the failure of that exchange. -/
theorem Consistent.giveUp {call : Call} {sent : Vector call.Item size} {fault : ExchangeError → ε}
    {next : Vector call.Item size → Program size ε α} {error : ExchangeError}
    (kept : Consistent programs system posted opened) (here : ¬ system.Gone rank)
    (posts : ∀ peer, system.completed rank ≤ posted rank peer)
    (opens : ∀ peer, system.completed rank ≤ opened rank peer)
    (stands : (stage programs (system.completed rank)).get rank = .exchange call sent fault next)
    (apart : ∀ items, ¬ Meet (stage programs (system.completed rank)) call items)
    (cause : Cause programs system.Gone rank (system.completed rank) call (posted rank)
      (opened rank) error) :
    Consistent programs (system.turn rank (.leave (.error (fault error)) 0)) posted opened := by
  refine kept.turn (fun gone => absurd gone here) ?_
  refine Fits.mono system.Gone ?_
    (.leaving (by omega) posts opens (.broken stands apart cause))
  -- Others that had gone are still gone.
  intro peer gone
  by_cases same : peer = rank
  · subst same; exact absurd gone here
  · simpa [same] using gone

/-- Posting a message keeps the system consistent. -/
theorem Consistent.post {call : Call} {sent : Vector call.Item size} {fault : ExchangeError → ε}
    {next : Vector call.Item size → Program size ε α} {count : Nat}
    (kept : Consistent programs system posted opened)
    (busy : system.activity rank = .send call sent fault next count) (inside : count < size) :
    ∃ posts opens, Consistent programs ((system.refill rank ⟨count, inside⟩
      (system.mailbox rank ⟨count, inside⟩ ++ [⟨system.completed rank, call, sent[count]⟩])).turn
        rank (.send call sent fault next (count + 1))) posts opens := by
  obtain ⟨here, stands, within, posts, opens⟩ := kept.at_send busy
  -- The message goes into the mailbox, behind those of earlier exchanges.
  have made : ((stage programs (posted rank ⟨count, inside⟩)).get rank).parcel?
      (posted rank ⟨count, inside⟩) ⟨count, inside⟩ =
        some ⟨system.completed rank, call, sent[count]⟩ := by
    simp only [posts, Nat.lt_irrefl, if_false, Nat.add_zero, stands, Program.parcel?]
    rfl
  refine ⟨_, _, kept.turned rank (oneMore (posted rank) ⟨count, inside⟩) (opened rank) ?_
    (fun _ _ => rfl) (fun gone => absurd gone here) (kept.met rank) ?_ ?_⟩
  · intro other different
    simp [different]
  · rw [System.turn_activity_self]
    exact .sending stands inside (oneMore_upTo inside posts) opens
  · intro sender receiver
    simpa using kept.letters_post made sender receiver

/-- Finding a mailbox closed keeps the system consistent. -/
theorem Consistent.bounce {call : Call} {sent : Vector call.Item size} {fault : ExchangeError → ε}
    {next : Vector call.Item size → Program size ε α} {count : Nat}
    (kept : Consistent programs system posted opened)
    (busy : system.activity rank = .send call sent fault next count) (inside : count < size)
    (left : system.Gone ⟨count, inside⟩) :
    Consistent programs (system.turn rank (.leave (.error (fault (.peerLeft count))) 0))
      posted opened := by
  obtain ⟨here, stands, within, posts, opens⟩ := kept.at_send busy
  -- The receiver is gone without having opened the message that it is to be sent now.
  have unopened : opened ⟨count, inside⟩ rank ≤ system.completed rank := by
    have letters := (kept.letters rank ⟨count, inside⟩).1
    have := posts ⟨count, inside⟩
    simp at this
    omega
  obtain ⟨apart, certain⟩ := kept.apart_of_gone here left stands (.inl unopened)
  refine kept.giveUp here ?_ ?_ stands apart (.left left certain)
  · intro peer; rw [posts]; omega
  · intro peer; exact Nat.le_of_eq (opens peer).symm

/-- Turning to the receipts keeps the system consistent. -/
theorem Consistent.listen {call : Call} {sent : Vector call.Item size} {fault : ExchangeError → ε}
    {next : Vector call.Item size → Program size ε α} {count : Nat}
    (kept : Consistent programs system posted opened)
    (busy : system.activity rank = .send call sent fault next count) (sentAll : size ≤ count) :
    Consistent programs (system.turn rank (.receive call fault next 0 #v[])) posted opened := by
  obtain ⟨here, stands, within, posts, opens⟩ := kept.at_send busy
  -- All messages are posted by now, and none is opened yet.
  refine kept.turn (fun gone => absurd gone here) (.receiving stands (by omega) ?_ ?_ ?_)
  · intro peer; rw [posts, if_pos (by omega)]
  · intro peer; simp [opens]
  · intro peer inside; omega

/-- The message that a receiving rank is to open next is the peer's in this very exchange. -/
theorem Consistent.arrived {call : Call} {fault : ExchangeError → ε}
    {next : Vector call.Item size → Program size ε α} {count : Nat} {received : Vector call.Item count}
    {parcel : Parcel} {rest : List Parcel} (kept : Consistent programs system posted opened)
    (busy : system.activity rank = .receive call fault next count received) (inside : count < size)
    (waiting : system.mailbox ⟨count, inside⟩ rank = parcel :: rest) :
    ((stage programs (system.completed rank)).get ⟨count, inside⟩).parcel?
      (system.completed rank) rank = some parcel := by
  obtain ⟨_, _, _, _, opens, _⟩ := kept.at_receive busy
  have oldest := kept.letters ⟨count, inside⟩ rank
  rw [waiting] at oldest
  -- Everything that the peer sent in earlier exchanges has been opened.
  have unopened : opened rank ⟨count, inside⟩ = system.completed rank := by simp [opens]
  simpa only [unopened] using oldest.open.1

/-- A rank that opens the oldest message of a peer may turn to whatever fits one more opened message. -/
theorem Consistent.take {peer : Fin size} {parcel : Parcel} {rest : List Parcel}
    {activity : Activity size ε α} (kept : Consistent programs system posted opened)
    (here : ¬ system.Gone rank) (waiting : system.mailbox peer rank = parcel :: rest)
    (fits : Fits programs ((system.refill peer rank rest).turn rank activity).Gone rank
      (system.completed rank) (posted rank) (oneMore (opened rank) peer) activity) :
    ∃ posts opens,
      Consistent programs ((system.refill peer rank rest).turn rank activity) posts opens := by
  -- Nothing but the rank and its mailbox from the peer changes.
  refine ⟨_, _, kept.turned rank (posted rank) (oneMore (opened rank) peer) ?_ (fun _ _ => rfl)
    (fun gone => absurd gone here) (kept.met rank) ?_ ?_⟩
  · intro other different
    simp [different]
  · simpa using fits
  · intro sender receiver
    simpa using kept.letters_open waiting sender receiver

/-- Opening a message that is accepted keeps the system consistent. -/
theorem Consistent.accept {call : Call} {fault : ExchangeError → ε}
    {next : Vector call.Item size → Program size ε α} {count : Nat} {received : Vector call.Item count}
    {parcel : Parcel} {rest : List Parcel} {item : call.Item}
    (kept : Consistent programs system posted opened)
    (busy : system.activity rank = .receive call fault next count received) (inside : count < size)
    (waiting : system.mailbox ⟨count, inside⟩ rank = parcel :: rest)
    (accepted : parcel.accept count (system.completed rank) call = .ok item) :
    ∃ posts opens, Consistent programs ((system.refill ⟨count, inside⟩ rank rest).turn rank
      (.receive call fault next (count + 1) (received.push item))) posts opens := by
  obtain ⟨here, ⟨sent, stands⟩, within, posts, opens, taken⟩ := kept.at_receive busy
  have arrived := kept.arrived busy inside waiting
  refine kept.take here waiting (.receiving stands inside posts (oneMore_upTo inside opens) ?_)
  -- What was received before stays in its place, and the new item is the peer's.
  intro peer before
  rcases Nat.lt_or_eq_of_le (Nat.le_of_lt_succ before) with earlier | last
  · obtain ⟨items, fault, next, made, same⟩ := taken peer earlier
    exact ⟨items, fault, next, made, by rw [Vector.getElem_push_lt earlier]; exact same⟩
  · have : peer = ⟨count, inside⟩ := Fin.ext last
    subst this
    rw [Parcel.accept_eq_ok_iff.mp accepted] at arrived
    obtain ⟨items, fault, next, made, same⟩ := (Program.parcel?_eq_some_iff _).mp arrived
    exact ⟨items, fault, next, made, by simpa using same.symm⟩

/-- Opening a message that is refused keeps the system consistent. -/
theorem Consistent.refuse {call : Call} {fault : ExchangeError → ε}
    {next : Vector call.Item size → Program size ε α} {count : Nat} {received : Vector call.Item count}
    {parcel : Parcel} {rest : List Parcel} {error : ExchangeError}
    (kept : Consistent programs system posted opened)
    (busy : system.activity rank = .receive call fault next count received) (inside : count < size)
    (waiting : system.mailbox ⟨count, inside⟩ rank = parcel :: rest)
    (refused : parcel.accept count (system.completed rank) call = .error error) :
    ∃ posts opens, Consistent programs ((system.refill ⟨count, inside⟩ rank rest).turn rank
      (.leave (.error (fault error)) 0)) posts opens := by
  obtain ⟨here, ⟨sent, stands⟩, within, posts, opens, taken⟩ := kept.at_receive busy
  have arrived := kept.arrived busy inside waiting
  -- In a meeting the message of the peer would have been accepted.
  have apart : ∀ items, ¬ Meet (stage programs (system.completed rank)) call items := by
    intro items meet
    obtain ⟨_, _, made⟩ := meet ⟨count, inside⟩
    rw [made, Program.parcel?, Option.some.injEq] at arrived
    rw [Parcel.accept_eq_ok_iff.mpr arrived.symm] at refused
    simp at refused
  refine kept.take here waiting (.leaving (by omega) (fun peer => ?_) (fun peer => ?_)
    (.broken stands apart (.refused arrived refused ?_ posts)))
  · rw [posts]; omega
  · rw [oneMore_apply, opens]; omega
  · simp [opens]

/-- Finding a mailbox empty whose sender is gone keeps the system consistent. -/
theorem Consistent.miss {call : Call} {fault : ExchangeError → ε}
    {next : Vector call.Item size → Program size ε α} {count : Nat} {received : Vector call.Item count}
    (kept : Consistent programs system posted opened)
    (busy : system.activity rank = .receive call fault next count received) (inside : count < size)
    (nothing : system.mailbox ⟨count, inside⟩ rank = [])
    (left : system.Gone ⟨count, inside⟩) :
    Consistent programs (system.turn rank (.leave (.error (fault (.peerLeft count))) 0))
      posted opened := by
  obtain ⟨here, ⟨sent, stands⟩, within, posts, opens, -⟩ := kept.at_receive busy
  -- What the peer posted has all been opened, and that was before this exchange.
  have unposted : posted ⟨count, inside⟩ rank ≤ system.completed rank :=
    Nat.le_of_eq (kept.posted_eq_of_empty busy inside nothing)
  obtain ⟨apart, certain⟩ := kept.apart_of_gone here left stands (.inr unposted)
  refine kept.giveUp here ?_ ?_ stands apart (.left left certain)
  · intro peer; rw [posts]; omega
  · intro peer; rw [opens]; omega

/-- A rank that has opened the messages of all peers has met them all. -/
theorem Consistent.meet_of_received {call : Call} {fault : ExchangeError → ε}
    {next : Vector call.Item size → Program size ε α} {received : Vector call.Item size}
    (kept : Consistent programs system posted opened)
    (busy : system.activity rank = .receive call fault next size received) :
    ∃ sent, Meet (stage programs (system.completed rank)) call sent ∧
      received = delivered sent rank ∧
      (stage programs (system.completed rank)).get rank = .exchange call (sent rank) fault next := by
  obtain ⟨-, ⟨sent, stands⟩, -, -, -, taken⟩ := kept.at_receive busy
  choose items fault next made same using fun peer : Fin size => taken peer peer.isLt
  -- Every message that was opened tells what its sender stands at.
  have meet : Meet (stage programs (system.completed rank)) call items :=
    fun peer => ⟨fault peer, next peer, made peer⟩
  refine ⟨items, meet, ?_, ?_⟩
  · apply Vector.ext
    intro index inside
    simpa [delivered] using same ⟨index, inside⟩
  · obtain ⟨_, equal⟩ := meet.unique stands
    dsimp only at equal
    rw [equal]
    exact stands

/-- Going on after an exchange keeps the system consistent. -/
theorem Consistent.proceed {call : Call} {fault : ExchangeError → ε}
    {next : Vector call.Item size → Program size ε α} {received : Vector call.Item size}
    (kept : Consistent programs system posted opened)
    (busy : system.activity rank = .receive call fault next size received) :
    Consistent programs (system.proceed rank (next received)) posted opened := by
  obtain ⟨sent, meet, rfl, stands⟩ := kept.meet_of_received busy
  obtain ⟨here, -, -, posts, opens, -⟩ := kept.at_receive busy
  -- With this exchange complete, all messages up to it are posted and opened.
  have allPosted : posted rank = fun _ => system.completed rank + 1 := funext posts
  have allOpened : opened rank = fun _ => system.completed rank + 1 := by
    funext peer; simp [opens]
  have turned : Consistent programs (system.proceed rank (next (delivered sent rank)))
      (Function.update posted rank (posted rank)) (Function.update opened rank (opened rank)) := by
    refine kept.turned rank (posted rank) (opened rank) ?_ ?_ ?_ ?_ ?_ ?_
    · intro other different
      simp [different]
    · intro other different
      simp [different]
    · exact fun gone => absurd gone here
    · intro earlier before
      rw [System.proceed_completed_self] at before
      rcases Nat.lt_or_eq_of_le (Nat.le_of_lt_succ before) with earlier | last
      · exact kept.met rank _ earlier
      · exact last ▸ ⟨call, sent, meet⟩
    · rw [System.proceed_activity, System.turn_activity_self, System.proceed_completed_self, allPosted,
        allOpened]
      exact Fits.ofStage _ (stage_succ_meet meet stands)
    · simpa using kept.letters
  simpa using turned

/-- Closing one more end of a mailbox keeps the system consistent. -/
theorem Consistent.close {outcome : Except ε α} {closed : Nat}
    (kept : Consistent programs system posted opened)
    (busy : system.activity rank = .leave outcome closed) (more : closed < size + size) :
    Consistent programs (system.turn rank (.leave outcome (closed + 1))) posted opened := by
  refine kept.turn (fun _ => rfl) ?_
  have fits := kept.fits rank
  rw [busy] at fits
  obtain ⟨⟩ | ⟨⟩ | ⟨within, posts, opens, ended⟩ := fits
  -- The rank had gone before, so that nobody goes by this.
  refine Fits.mono system.Gone ?_ (.leaving more posts opens ended)
  intro peer gone
  by_cases same : peer = rank
  · subst same; simp [Activity.outcome?]
  · simpa [same] using gone

/-- Every move of a rank keeps the system consistent. -/
theorem Consistent.move (kept : Consistent programs system posted opened)
    (moved : system.move rank = some later) :
    ∃ posts opens, Consistent programs later posts opens := by
  -- There is a lemma for every kind of move.
  cases System.Moves.of_move moved with
  | post busy inside _ => exact kept.post busy inside
  | bounce busy inside closed =>
    exact ⟨posted, opened, kept.bounce busy inside (System.gone_of_closed (.inl closed))⟩
  | listen busy sentAll => exact ⟨posted, opened, kept.listen busy sentAll⟩
  | accept busy inside waiting accepted => exact kept.accept busy inside waiting accepted
  | refuse busy inside waiting refused => exact kept.refuse busy inside waiting refused
  | miss busy inside nothing closed =>
    exact ⟨posted, opened, kept.miss busy inside nothing (System.gone_of_closed (.inr closed))⟩
  | proceed busy => exact ⟨posted, opened, kept.proceed busy⟩
  | close busy more => exact ⟨posted, opened, kept.close busy more⟩

/-- Every schedule keeps the system consistent. -/
theorem Consistent.follow {schedule : List (Fin size)}
    (kept : Consistent programs system posted opened)
    (followed : system.follow schedule = some later) :
    ∃ posts opens, Consistent programs later posts opens := by
  -- The induction is on the schedule, one move after the other.
  induction schedule generalizing system posted opened with
  | nil =>
    cases followed
    exact ⟨posted, opened, kept⟩
  | cons rank schedule ih =>
    obtain ⟨between, moved, followed⟩ := System.follow_cons_eq_some_iff.mp followed
    obtain ⟨posts, opens, kept⟩ := kept.move moved
    exact ih kept followed

/-- Every system that is reached from the start of programs is consistent. -/
theorem Consistent.of_reaches (reached : (System.start programs).Reaches later) :
    ∃ posts opens, Consistent programs later posts opens := by
  obtain ⟨schedule, followed⟩ := reached
  exact (Consistent.start programs).follow followed

end DistGraph.Cluster
