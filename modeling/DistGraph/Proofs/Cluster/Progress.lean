import DistGraph.Program.Wire
import DistGraph.Proofs.Cluster.Moves
import Mathlib.Algebra.Order.BigOperators.Group.Finset

/-! No schedule leads to ranks that all wait for each other, and every schedule comes to an end. -/

namespace DistGraph.Cluster

section Waiting

variable [Payloads] {size : Nat} {ε α : Type} {programs : Vector (Program size ε α) size}
  {system later : System size ε α} {posted opened : Fin size → Fin size → Nat}
  {rank : Fin size}

/-- A rank that sends never waits. -/
theorem System.move_isSome_of_send {call : Call} {sent : Vector call.Item size}
    {fault : ExchangeError → ε} {next : Vector call.Item size → Program size ε α} {count : Nat}
    (busy : system.activity rank = .send call sent fault next count) : (system.move rank).isSome := by
  -- A message always finds room, and a closed mailbox ends the exchange at once.
  simp only [System.move, busy]
  split <;> rfl

/-- A rank that leaves can close its next end of a mailbox. -/
theorem System.move_isSome_of_leave {outcome : Except ε α} {closed : Nat}
    (busy : system.activity rank = .leave outcome closed)
    (remains : (system.activity rank).hasLeft = false) : (system.move rank).isSome := by
  rw [busy] at remains
  simp only [Activity.hasLeft, decide_eq_false_iff_not] at remains
  simp only [System.move, busy, if_pos (Nat.lt_of_not_le remains), Option.isSome_some]

/-- A rank that cannot receive waits for a message of a peer that still holds its end of the mailbox. -/
theorem System.waits_of_stuck {call : Call} {fault : ExchangeError → ε}
    {next : Vector call.Item size → Program size ε α} {count : Nat} {received : Vector call.Item count}
    (busy : system.activity rank = .receive call fault next count received) (within : count ≤ size)
    (stuck : system.move rank = none) :
    ∃ inside : count < size, system.mailbox ⟨count, inside⟩ rank = [] ∧
      (system.activity ⟨count, inside⟩).holdsOutbox rank = true := by
  simp only [System.move, busy] at stuck
  -- A message could be received, and a peer without its end would be found to have left.
  split at stuck
  · rename_i inside
    unfold System.receive at stuck
    split at stuck
    · dsimp only at stuck
      split at stuck <;> simp at stuck
    · rename_i nothing
      split at stuck
      · rename_i holds
        exact ⟨inside, nothing, holds⟩
      · simp at stuck
  · split at stuck <;> simp at stuck
    omega

/-- A rank waits only for a peer that can move or that has completed fewer exchanges. -/
theorem Consistent.waits_for (kept : Consistent programs system posted opened)
    (remains : (system.activity rank).hasLeft = false) (stuck : system.move rank = none) :
    ∃ peer, (system.activity peer).hasLeft = false ∧
      ((system.move peer).isSome ∨ system.completed peer < system.completed rank) := by
  -- A rank that sends or leaves can always move, so that it must be one that receives.
  cases busy : system.activity rank with
  | send call sent fault next count =>
    have moves := System.move_isSome_of_send busy
    simp [stuck] at moves
  | leave outcome closed =>
    have moves := System.move_isSome_of_leave busy remains
    simp [stuck] at moves
  | receive call fault next count received =>
    obtain ⟨_, _, within, _⟩ := kept.at_receive busy
    obtain ⟨inside, nothing, holds⟩ := System.waits_of_stuck busy within stuck
    refine ⟨⟨count, inside⟩, ?_⟩
    cases peerBusy : system.activity ⟨count, inside⟩ with
    | send call sent fault next count =>
      exact ⟨rfl, .inl (System.move_isSome_of_send peerBusy)⟩
    | leave outcome closed =>
      rw [peerBusy] at holds
      simp only [Activity.holdsOutbox, decide_eq_true_eq] at holds
      have open_ : (Activity.leave outcome closed : Activity size ε α).hasLeft = false := by
        simp only [Activity.hasLeft, decide_eq_false_iff_not]
        omega
      exact ⟨open_, .inl (System.move_isSome_of_leave peerBusy (peerBusy ▸ open_))⟩
    | receive call fault next count received =>
      -- A peer that receives has sent its message of the exchange that it is in.
      obtain ⟨_, _, _, peerPosts, _⟩ := kept.at_receive peerBusy
      have sent := peerPosts rank
      have unposted := kept.posted_eq_of_empty busy inside nothing
      exact ⟨rfl, .inr (by omega)⟩

/-- As long as some rank has not left, some rank can move. -/
theorem Consistent.exists_move (kept : Consistent programs system posted opened) (rank : Fin size)
    (remains : (system.activity rank).hasLeft = false) :
    ∃ mover, (system.activity mover).hasLeft = false ∧ (system.move mover).isSome := by
  -- Along ranks that wait for each other the number of completed exchanges only falls.
  induction completed : system.completed rank using Nat.strongRecOn generalizing rank with
  | ind count ih =>
    cases stuck : system.move rank with
    | some later => exact ⟨rank, remains, by simp [stuck]⟩
    | none =>
      obtain ⟨peer, peerRemains, moves | behind⟩ := kept.waits_for remains stuck
      · exact ⟨peer, peerRemains, moves⟩
      · exact ih _ (completed ▸ behind) peer peerRemains rfl

/-- No schedule leads to ranks that all wait for each other: some rank can move until all have
left, and a rank that sends can always move. -/
theorem deadlock_free (reached : (System.start programs).Reaches system) :
    (¬ system.Finished → ∃ mover, (system.activity mover).hasLeft = false ∧
      (system.move mover).isSome) ∧
    ∀ sender call sent fault next count,
      system.activity sender = .send call sent fault next count → (system.move sender).isSome := by
  obtain ⟨posted, opened, kept⟩ := Consistent.of_reaches reached
  refine ⟨fun unfinished => ?_, fun _ _ _ _ _ _ busy => System.move_isSome_of_send busy⟩
  -- A rank that has not left moves, or waits for one that can.
  unfold System.Finished at unfinished
  push Not at unfinished
  obtain ⟨rank, remains⟩ := unfinished
  exact kept.exists_move rank (by simpa using remains)

end Waiting

/-- Two ranks of which one gathers bytes while the other exchanges counts. -/
def outOfStep : Vector (Program 2 ExchangeError Unit) 2 :=
  -- Neither of them can receive what it expects.
  #v[.exchange (.gather Wire.byte) (.replicate 2 1) id fun _ => .done (),
    .exchange .counts #v[0, 0] id fun _ => .done ()]

/-- The first of two ranks out of step waits for the second, which can move. -/
theorem deadlock_free_outOfStep : ∃ system, (System.start outOfStep).Reaches system ∧
    (system.move 0).isNone ∧ ∃ mover, (system.activity mover).hasLeft = false ∧
      (system.move mover).isSome := by
  -- Rank 0 has sent to both ranks, turned to its receipts and received its own message.
  have followed : ((System.start outOfStep).follow [0, 0, 0, 0]).isSome := rfl
  obtain ⟨system, reached⟩ := Option.isSome_iff_exists.mp followed
  have waits : (((System.start outOfStep).follow [0, 0, 0, 0]).bind fun system =>
      system.move 0) = none := rfl
  have remains : (((System.start outOfStep).follow [0, 0, 0, 0]).map fun system =>
      (system.activity 0).hasLeft) = some false := rfl
  rw [reached] at waits remains
  refine ⟨system, ⟨_, reached⟩, by simpa using waits, (deadlock_free ⟨_, reached⟩).1 fun finished => ?_⟩
  have left := finished 0
  simp [left] at remains

section Ending

variable [Payloads] {size : Nat} {ε α : Type} {programs : Vector (Program size ε α) size}
  {system later : System size ε α} {posted opened : Fin size → Fin size → Nat}
  {rank : Fin size}

/-- From some number on the ranks meet in no exchange any more. -/
theorem exists_last_meeting (programs : Vector (Program size ε α) size) (rank : Fin size) :
    ∃ last, ∀ call sent, ¬ Meet (stage programs last) call sent := by
  -- Every meeting brings the rank to a smaller program.
  have general : ∀ (program : Program size ε α) (count : Nat),
      (stage programs count).get rank = program → ∃ last, ∀ call sent,
        ¬ Meet (stage programs last) call sent := by
    intro program
    -- By induction on the program, which a meeting replaces by one of its continuations.
    induction program with
    | done value =>
      intro count stands
      exact ⟨count, fun _ _ meet => meet.ne_done rank value stands⟩
    | fail error =>
      intro count stands
      exact ⟨count, fun _ _ meet => meet.ne_fail rank error stands⟩
    | exchange call sent fault next ih =>
      intro count stands
      by_cases meets : ∃ call sent, Meet (stage programs count) call sent
      · obtain ⟨made, items, meet⟩ := meets
        obtain ⟨_, _, same⟩ := meet rank
        rw [stands] at same
        cases same
        exact ih _ (count + 1) (stage_succ_meet meet stands)
      · push Not at meets
        exact ⟨count, meets⟩
  exact general _ 0 rfl

/-- How many moves a rank has left at most, if no exchange after a given one is completed. -/
def movesLeft (size last completed : Nat) : Activity size ε α → Nat
  -- An exchange takes a send and a receipt per rank, and a turn after either.
  | .send _ _ _ _ count => (last + 1 - completed) * (size + size + 2) + (size + size) - count
  | .receive _ _ _ count _ =>
    (last + 1 - completed) * (size + size + 2) + (size + size) - (size + 1 + count)
  | .leave _ closed => size + size - closed

/-- The moves that all ranks have left at most. -/
def System.movesLeft (last : Nat) (system : System size ε α) : Nat :=
  -- Only the rank that moves uses up a move.
  ∑ rank, Cluster.movesLeft size last (system.completed rank) (system.activity rank)

/-- The work ahead of a rank that starts on a program is what is left of the exchanges. -/
theorem movesLeft_ofProgram_le (last completed : Nat) (program : Program size ε α) :
    movesLeft size last completed (Activity.ofProgram program) ≤
      (last + 1 - completed) * (size + size + 2) + (size + size) := by
  -- A rank that is done has the ends of its mailboxes to close, and one at an exchange its messages as
  -- well.
  cases program with
  | done value | fail error =>
    simp only [Activity.ofProgram, movesLeft]
    omega
  | exchange call sent fault next => simp [Activity.ofProgram, movesLeft]

/-- A rank that moves has fewer moves left. -/
theorem Consistent.movesLeft_lt {last : Nat} (kept : Consistent programs system posted opened)
    (apart : ∀ call sent, ¬ Meet (stage programs last) call sent)
    (moves : system.Moves rank later) :
    movesLeft size last (later.completed rank) (later.activity rank) <
      movesLeft size last (system.completed rank) (system.activity rank) := by
  -- No rank completes the exchange in which ranks no longer meet.
  have early : system.completed rank ≤ last := by
    by_contra beyond
    obtain ⟨call, sent, meet⟩ := kept.met rank last (by omega)
    exact apart call sent meet
  have ahead : size + size + 2 ≤ (last + 1 - system.completed rank) * (size + size + 2) :=
    Nat.le_mul_of_pos_left _ (by omega)
  -- Every move uses up a part of what its activity may still take, and going on one whole exchange.
  cases moves with
  | post busy inside _ | bounce busy inside _ | accept busy inside _ _ | refuse busy inside _ _
  | miss busy inside _ _ =>
    simp [busy, Cluster.movesLeft]
    omega
  | listen busy sentAll =>
    obtain ⟨_, _, within, _⟩ := kept.at_send busy
    simp [busy, Cluster.movesLeft]
    omega
  | @proceed call fault next received busy =>
    have less := movesLeft_ofProgram_le last (system.completed rank + 1) (next received)
    have step : (last + 1 - system.completed rank) * (size + size + 2) =
        (last + 1 - (system.completed rank + 1)) * (size + size + 2) + (size + size + 2) := by
      rw [← Nat.succ_mul]
      congr 1
      omega
    rw [System.proceed_activity, System.turn_activity_self, System.proceed_completed_self]
    refine Nat.lt_of_le_of_lt less ?_
    simp only [busy, Cluster.movesLeft]
    omega
  | close busy more =>
    simp [busy, Cluster.movesLeft]
    omega

/-- Every move of a rank uses up one of the moves that all ranks have left. -/
theorem Consistent.total_movesLeft_lt {last : Nat} (kept : Consistent programs system posted opened)
    (apart : ∀ call sent, ¬ Meet (stage programs last) call sent)
    (moved : system.move rank = some later) : later.movesLeft last < system.movesLeft last := by
  have moves := System.Moves.of_move moved
  -- The rank that moves has fewer moves left, and all others as many as before.
  refine Finset.sum_lt_sum (fun other _ => ?_) ⟨rank, Finset.mem_univ rank, kept.movesLeft_lt apart moves⟩
  by_cases same : other = rank
  · subst same; exact Nat.le_of_lt (kept.movesLeft_lt apart moves)
  · obtain ⟨activity, completed⟩ := moves.other same
    rw [activity, completed]

/-- Whatever the ranks have done so far, they can all go on until they have left. -/
theorem Consistent.reaches_finished (kept : Consistent programs system posted opened) :
    ∃ final, system.Reaches final ∧ final.Finished := by
  -- Without ranks nothing is left to do; otherwise there is a last meeting.
  rcases Nat.eq_zero_or_pos size with none_there | some_there
  · exact ⟨system, ⟨[], rfl⟩, fun rank => absurd rank.isLt (by omega)⟩
  obtain ⟨last, apart⟩ := exists_last_meeting programs ⟨0, some_there⟩
  induction left : system.movesLeft last using Nat.strongRecOn generalizing system posted opened with
  | ind count ih =>
    by_cases finished : system.Finished
    · exact ⟨system, ⟨[], rfl⟩, finished⟩
    · unfold System.Finished at finished
      push Not at finished
      obtain ⟨rank, remains⟩ := finished
      obtain ⟨mover, -, moves⟩ := kept.exists_move rank (by simpa using remains)
      obtain ⟨later, moved⟩ := Option.isSome_iff_exists.mp moves
      obtain ⟨posts, opens, laterKept⟩ := kept.move moved
      obtain ⟨final, ⟨schedule, followed⟩, finished⟩ :=
        ih _ (left ▸ kept.total_movesLeft_lt apart moved) laterKept rfl
      exact ⟨final, ⟨mover :: schedule, System.follow_cons_eq_some_iff.mpr ⟨_, moved, followed⟩⟩, finished⟩

/-- A schedule is no longer than the moves that all ranks have left. -/
theorem Consistent.length_schedule_le {last : Nat} {schedule : List (Fin size)}
    (kept : Consistent programs system posted opened)
    (apart : ∀ call sent, ¬ Meet (stage programs last) call sent)
    (followed : system.follow schedule = some later) : schedule.length ≤ system.movesLeft last := by
  -- The induction is on the schedule, of which every move uses up one that is left.
  induction schedule generalizing system posted opened with
  | nil => exact Nat.zero_le _
  | cons mover schedule ih =>
    obtain ⟨between, moved, followed⟩ := System.follow_cons_eq_some_iff.mp followed
    obtain ⟨posts, opens, betweenKept⟩ := kept.move moved
    exact Nat.lt_of_le_of_lt (ih betweenKept followed) (kept.total_movesLeft_lt apart moved)

/-- Whether all schedules come to an end, and only where no rank waits any more. -/
def Terminates (programs : Vector (Program size ε α) size) : Prop :=
  ∃ most, ∀ schedule system, (System.start programs).follow schedule = some system →
    schedule.length ≤ most ∧ (¬ system.Finished → ∃ mover, (system.move mover).isSome)

/-- Ranks never wait forever, whatever they do. -/
theorem terminates (programs : Vector (Program size ε α) size) : Terminates programs := by
  have goes : ∀ schedule system, (System.start programs).follow schedule = some system →
      ¬ system.Finished → ∃ mover, (system.move mover).isSome := by
    intro schedule system followed unfinished
    unfold System.Finished at unfinished
    push Not at unfinished
    obtain ⟨rank, remains⟩ := unfinished
    obtain ⟨posted, opened, kept⟩ := Consistent.of_reaches ⟨schedule, followed⟩
    obtain ⟨mover, -, moves⟩ := kept.exists_move rank (by simpa using remains)
    exact ⟨mover, moves⟩
  -- Without ranks there are no moves, and otherwise the moves that are left run out.
  rcases Nat.eq_zero_or_pos size with rfl | occupied
  · refine ⟨0, fun schedule system followed => ⟨?_, goes schedule system followed⟩⟩
    cases schedule with
    | nil => exact Nat.le_refl _
    | cons mover _ => exact mover.elim0
  · obtain ⟨last, apart⟩ := exists_last_meeting programs ⟨0, occupied⟩
    exact ⟨(System.start programs).movesLeft last, fun schedule system followed =>
      ⟨(Consistent.start programs).length_schedule_le apart followed, goes schedule system followed⟩⟩

end Ending

end DistGraph.Cluster
