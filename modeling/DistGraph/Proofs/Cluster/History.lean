import Mathlib.Data.Fin.VecNotation
import DistGraph.Proofs.Cluster.Progress

/-! What ranks experience under a schedule: which exchanges they start, what these return, how they end. -/

namespace DistGraph.Cluster

section Schedules

variable [Payloads] {size : Nat} {ε α : Type} {programs : Vector (Program size ε α) size}

/-- A schedule under which all ranks come to leave. -/
structure Run (programs : Vector (Program size ε α) size) where
  /-- The rank of every move. -/
  schedule : List (Fin size)
  /-- The system that the schedule leads to. -/
  last : System size ε α
  /-- Every rank could move when it was its turn. -/
  followed : (System.start programs).follow schedule = some last
  /-- All ranks have left. -/
  finished : last.Finished

/-- Whether a schedule passes through a system on its way. -/
def System.Visits (system : System size ε α) (schedule : List (Fin size))
    (seen : System size ε α) : Prop :=
  -- Some first moves of the schedule lead there.
  ∃ done later, schedule = done ++ later ∧ system.follow done = some seen

namespace Run

/-- Whether a rank starts its exchange of a given number, with a call and an item for every rank. -/
def Issues (run : Run programs) (rank : Fin size) (number : Nat) (call : Call)
    (sent : Vector call.Item size) : Prop :=
  -- Before the first item is sent, as many exchanges are complete as the number says.
  ∃ seen, (System.start programs).Visits run.schedule seen ∧ seen.completed rank = number ∧
    ∃ fault next, seen.activity rank = .send call sent fault next 0

/-- Whether the exchange of a rank with a given number returns, and with which items. -/
def Returns (run : Run programs) (rank : Fin size) (number : Nat) (call : Call)
    (received : Vector call.Item size) : Prop :=
  -- An exchange returns once the items of all peers are there.
  ∃ seen, (System.start programs).Visits run.schedule seen ∧ seen.completed rank = number ∧
    ∃ fault next, seen.activity rank = .receive call fault next size received

/-- How a rank ends. -/
def outcome (run : Run programs) (rank : Fin size) : Option (Except ε α) :=
  -- All ranks have left, so each of them has an outcome.
  (run.last.activity rank).outcome?

end Run

section Visiting

variable {system seen later final : System size ε α} {schedule : List (Fin size)} {rank mover : Fin size}

/-- What is visited later on is visited by the whole schedule. -/
theorem System.Visits.cons (moved : system.move mover = some later)
    (visits : later.Visits schedule seen) : system.Visits (mover :: schedule) seen := by
  obtain ⟨done, rest, rfl, followed⟩ := visits
  exact ⟨mover :: done, rest, rfl,
    System.follow_cons_eq_some_iff.mpr ⟨_, moved, followed⟩⟩

/-- Every schedule visits the system that it starts from. -/
theorem System.Visits.start : system.Visits schedule system :=
  ⟨[], schedule, rfl, rfl⟩

/-- A rank counts an exchange as complete only when it goes on after it. -/
theorem System.move_completed (rank : Fin size) (moved : system.move mover = some later) :
    later.completed rank = system.completed rank ∨
    (later.completed rank = system.completed rank + 1 ∧ ∃ call fault next received,
      system.activity rank = .receive call fault next size received ∧
      later.activity rank = .ofProgram (next received)) := by
  have moves := System.Moves.of_move moved
  by_cases same : rank = mover
  · subst same
    -- The only move that completes an exchange is to go on after it.
    cases moves with
    | post | bounce | listen | accept | refuse | miss | close => exact .inl rfl
    | proceed busy =>
      exact .inr ⟨by simp, _, _, _, _, busy, by simp⟩
  · exact .inl (moves.other same).2

/-- A schedule that completes an exchange visits the move that completes it. -/
theorem System.visits_completion {number : Nat} (followed : system.follow schedule = some final)
    (before : system.completed rank ≤ number) (after : number < final.completed rank) :
    ∃ seen later, system.Visits schedule seen ∧ system.Visits schedule later ∧
      seen.completed rank = number ∧ later.completed rank = number + 1 ∧
      ∃ call fault next received, seen.activity rank = .receive call fault next size received ∧
        later.activity rank = .ofProgram (next received) := by
  -- The count of a rank goes up by one at a time, so some move takes it past the number.
  induction schedule generalizing system with
  | nil =>
    cases followed
    omega
  | cons mover schedule ih =>
    obtain ⟨between, moved, followed⟩ := System.follow_cons_eq_some_iff.mp followed
    rcases Nat.lt_or_ge number (between.completed rank) with reached | unreached
    · rcases System.move_completed rank moved with same | ⟨more, received⟩
      · omega
      · exact ⟨system, between, .start, .cons moved .start, by omega, by omega, received⟩
    · obtain ⟨seen, later, visitsSeen, visitsLater, rest⟩ := ih followed unreached
      exact ⟨seen, later, visitsSeen.cons moved, visitsLater.cons moved, rest⟩

/-- Whatever a schedule visits is consistent. -/
theorem System.Visits.consistent (visits : (System.start programs).Visits schedule seen) :
    ∃ posted opened, Consistent programs seen posted opened := by
  obtain ⟨done, _, _, followed⟩ := visits
  exact Consistent.of_reaches ⟨done, followed⟩

end Visiting

section Finished

variable {system : System size ε α} {posted opened : Fin size → Fin size → Nat} {rank : Fin size}

/-- A rank that has closed all ends of mailboxes has an outcome. -/
theorem System.Finished.gone (finished : system.Finished) (rank : Fin size) : system.Gone rank := by
  have left := finished rank
  unfold System.Gone
  -- A rank that sends or receives holds ends of mailboxes.
  cases busy : system.activity rank with
  | send | receive => simp [busy, Activity.hasLeft] at left
  | leave outcome closed => rfl

/-- In the end every rank has completed exactly the exchanges in which all ranks met. -/
theorem Consistent.completed_of_finished (kept : Consistent programs system posted opened)
    (finished : system.Finished) (rank : Fin size) (count : Nat) :
    count < system.completed rank ↔ ∃ call sent, Meet (stage programs count) call sent := by
  refine ⟨kept.met rank count, fun ⟨call, sent, meet⟩ => ?_⟩
  by_contra early
  -- A rank that met all others at its last stage would have gone on.
  have last : ∃ call sent, Meet (stage programs (system.completed rank)) call sent := by
    rcases Nat.lt_or_eq_of_le (Nat.le_of_not_lt early) with before | same
    · obtain ⟨_, _, stands⟩ := meet rank
      exact meet_of_later stands before
    · exact ⟨call, sent, same ▸ meet⟩
  obtain ⟨_, _, meet⟩ := last
  exact absurd (kept.ahead_of_meet (finished.gone rank) meet) (Nat.lt_irrefl _)

/-- In the end every rank has an outcome that its last stage explains. -/
theorem Consistent.ended_of_finished (kept : Consistent programs system posted opened)
    (finished : system.Finished) (rank : Fin size) :
    ∃ outcome, (system.activity rank).outcome? = some outcome ∧
      Ended programs system.Gone rank (system.completed rank) (posted rank) (opened rank) outcome := by
  obtain ⟨outcome, known, _, _, ended⟩ := kept.ended_of_gone (finished.gone rank)
  exact ⟨outcome, known, ended⟩

end Finished

namespace Run

variable {rank : Fin size} {number : Nat} {call : Call}

/-- Where a run ends, ranks and mailboxes are consistent. -/
theorem consistent (run : Run programs) :
    ∃ posted opened, Consistent programs run.last posted opened :=
  Consistent.of_reaches ⟨run.schedule, run.followed⟩

/-- A rank starts exactly the exchanges at which it stands in some stage. -/
theorem issues_iff (run : Run programs) {sent : Vector call.Item size} :
    run.Issues rank number call sent ↔
      ∃ fault next, (stage programs number).get rank = .exchange call sent fault next := by
  constructor
  · -- A rank that is about to send is at the stage that its exchanges have brought it to.
    rintro ⟨seen, visits, rfl, fault, next, busy⟩
    obtain ⟨posted, opened, kept⟩ := visits.consistent
    obtain ⟨_, stands, _⟩ := kept.at_send busy
    exact ⟨fault, next, stands⟩
  · intro ⟨fault, next, stands⟩
    obtain ⟨posted, opened, kept⟩ := run.consistent
    -- The rank comes to the stage either at the start or by completing the exchange before.
    cases number with
    | zero =>
      have stands : programs.get rank = .exchange call sent fault next := stands
      refine ⟨_, .start, rfl, fault, next, ?_⟩
      simp only [System.start, stands, Activity.ofProgram]
    | succ before =>
      have completes : before < run.last.completed rank :=
        (kept.completed_of_finished run.finished rank before).mpr (meet_of_later stands (by omega))
      obtain ⟨seen, later, visitsSeen, visitsLater, seenCount, laterCount, made, _, onwards, _, busy,
        goesOn⟩ := System.visits_completion run.followed (Nat.zero_le before) completes
      obtain ⟨seenPosted, seenOpened, seenKept⟩ := visitsSeen.consistent
      obtain ⟨items, meet, rfl, seenStands⟩ := seenKept.meet_of_received busy
      rw [seenCount] at meet seenStands
      rw [stage_succ_meet meet seenStands] at stands
      exact ⟨later, visitsLater, laterCount, fault, next, by rw [goesOn, stands, Activity.ofProgram]⟩

/-- An exchange returns exactly when all ranks meet in it, with what they put at the rank's position. -/
theorem returns_iff (run : Run programs) {received : Vector call.Item size} :
    run.Returns rank number call received ↔
      ∃ sent, Meet (stage programs number) call sent ∧ received = delivered sent rank := by
  constructor
  · -- What has been received in full is what the ranks have sent when they met.
    rintro ⟨seen, visits, rfl, fault, next, busy⟩
    obtain ⟨posted, opened, kept⟩ := visits.consistent
    obtain ⟨sent, meet, same, _⟩ := kept.meet_of_received busy
    exact ⟨sent, meet, same⟩
  · rintro ⟨sent, meet, rfl⟩
    obtain ⟨posted, opened, kept⟩ := run.consistent
    have completes : number < run.last.completed rank :=
      (kept.completed_of_finished run.finished rank number).mpr ⟨call, sent, meet⟩
    obtain ⟨seen, _, visits, _, count, _, made, fault, next, received, busy, _⟩ :=
      System.visits_completion run.followed (Nat.zero_le number) completes
    obtain ⟨seenPosted, seenOpened, seenKept⟩ := visits.consistent
    obtain ⟨items, seenMeet, rfl, stands⟩ := seenKept.meet_of_received busy
    rw [count] at seenMeet stands
    -- The exchange that returned is the one in which the ranks are known to meet.
    obtain ⟨rfl, same⟩ := meet.unique stands
    have items_eq : items = sent := by
      funext peer
      obtain ⟨_, _, peerStands⟩ := seenMeet peer
      obtain ⟨_, peerSame⟩ := meet.unique peerStands
      exact peerSame.symm
    subst items_eq
    exact ⟨seen, visits, count, fault, next, busy⟩

end Run

/-- What a rank finds wrong in an exchange of two ranks is determined by the stages. -/
theorem Cause.unique {gone otherGone : Fin size → Prop} {rank : Fin size} {completed : Nat}
    {call : Call} {posted opened otherPosted otherOpened : Fin size → Nat}
    {error other : ExchangeError} {sent : Vector call.Item size} {fault : ExchangeError → ε}
    {next : Vector call.Item size → Program size ε α} (pair : size ≤ 2)
    (stands : (stage programs completed).get rank = .exchange call sent fault next)
    (cause : Cause programs gone rank completed call posted opened error)
    (again : Cause programs otherGone rank completed call otherPosted otherOpened other) :
    error = other := by
  obtain ⟨peer, away, why⟩ := cause.of_other pair stands
  obtain ⟨otherPeer, otherAway, otherWhy⟩ := again.of_other pair stands
  -- There is only one other rank, and its stage tells whether and what it posts.
  obtain rfl : otherPeer = peer := by omega
  rcases why with ⟨-, rfl, nothing⟩ | ⟨parcel, arrived, refusal, -⟩ <;>
    rcases otherWhy with ⟨-, rfl, otherNothing⟩ | ⟨otherParcel, otherArrived, otherRefusal, -⟩
  · rfl
  · rw [nothing] at otherArrived
    cases otherArrived
  · rw [arrived] at otherNothing
    cases otherNothing
  · rw [arrived, Option.some.injEq] at otherArrived
    subst otherArrived
    rw [refusal, Except.error.injEq] at otherRefusal
    exact otherRefusal

namespace Run

variable {rank : Fin size}

/-- Ranks complete the same number of exchanges in all runs. -/
theorem completed_eq (run other : Run programs) :
    run.last.completed rank = other.last.completed rank := by
  obtain ⟨_, _, kept⟩ := run.consistent
  obtain ⟨_, _, otherKept⟩ := other.consistent
  -- Both numbers lie above exactly the exchanges in which all ranks meet.
  have below : ∀ count, count < run.last.completed rank ↔ count < other.last.completed rank :=
    fun count => (kept.completed_of_finished run.finished rank count).trans
      (otherKept.completed_of_finished other.finished rank count).symm
  have first := below (run.last.completed rank)
  have second := below (other.last.completed rank)
  omega

/-- A rank ends well exactly when it is done in some stage. -/
theorem outcome_ok_iff (run : Run programs) {value : α} :
    run.outcome rank = some (.ok value) ↔
      ∃ count, (stage programs count).get rank = .done value := by
  obtain ⟨_, _, kept⟩ := run.consistent
  obtain ⟨outcome, known, why⟩ := kept.ended_of_finished run.finished rank
  rw [Run.outcome, known, Option.some.injEq]
  -- A rank with a value has got it at the stage that it ended in.
  constructor
  · rintro rfl
    cases why with
    | done stands => exact ⟨_, stands⟩
  · intro ⟨count, done⟩
    -- Of two stages of a rank the later one repeats how the earlier one ended.
    rcases Nat.le_total count (run.last.completed rank) with before | after
    · have stands := stage_done_of_le done before
      cases why with
      | done again => rw [stands] at again; cases again; rfl
      | failed again => simp [stands] at again
      | broken again => simp [stands] at again
    · cases why with
      | done again =>
        rw [stage_done_of_le again after] at done
        cases done
        rfl
      | failed again => simp [stage_fail_of_le again after] at done
      | broken stands apart =>
        obtain ⟨error, failed⟩ := stage_succ_apart apart stands
        rcases Nat.lt_or_eq_of_le after with beyond | same
        · simp [stage_fail_of_le failed beyond] at done
        · simp [← same, stands] at done

/-- One or two ranks end with the same outcome in all runs. -/
theorem outcome_eq (run other : Run programs) (pair : size ≤ 2) :
    run.outcome rank = other.outcome rank := by
  obtain ⟨_, _, kept⟩ := run.consistent
  obtain ⟨_, _, otherKept⟩ := other.consistent
  obtain ⟨outcome, known, why⟩ := kept.ended_of_finished run.finished rank
  obtain ⟨otherOutcome, otherKnown, otherWhy⟩ := otherKept.ended_of_finished other.finished rank
  rw [← completed_eq run other] at otherWhy
  rw [Run.outcome, Run.outcome, known, otherKnown, Option.some.injEq]
  -- Both runs end in one stage, whose program tells what they end with.
  cases why with
  | done stands =>
    cases otherWhy with
    | done again => rw [stands] at again; cases again; rfl
    | failed again => simp [stands] at again
    | broken again => simp [stands] at again
  | failed stands =>
    cases otherWhy with
    | done again => simp [stands] at again
    | failed again => rw [stands] at again; cases again; rfl
    | broken again => simp [stands] at again
  | broken stands _ cause =>
    cases otherWhy with
    | done again => simp [stands] at again
    | failed again => simp [stands] at again
    | broken again _ otherCause =>
      rw [stands] at again
      cases again
      -- With a single peer there is no other rank to break the exchange.
      rw [Cause.unique pair stands cause otherCause]

/-- Every schedule can be carried on to a run. -/
theorem exists_run {schedule : List (Fin size)} {system : System size ε α}
    (followed : (System.start programs).follow schedule = some system) :
    ∃ run : Run programs, schedule <+: run.schedule := by
  obtain ⟨_, _, kept⟩ := Consistent.of_reaches ⟨schedule, followed⟩
  -- From any consistent system the ranks can be led to an end.
  obtain ⟨final, ⟨later, onwards⟩, finished⟩ := kept.reaches_finished
  exact ⟨⟨schedule ++ later, final, (System.follow_append followed).trans onwards, finished⟩,
    List.prefix_append schedule later⟩

/-- All programs have a run. -/
theorem exists_of_programs (programs : Vector (Program size ε α) size) : Nonempty (Run programs) := by
  have followed : (System.start programs).follow [] = some (System.start programs) := rfl
  obtain ⟨run, -⟩ := exists_run followed
  exact ⟨run⟩

end Run

/-- Exchanges are exact and do not hang on the schedule.

In every run an exchange that a rank issues returns exactly when all ranks issue theirs of that
number with the same call, and returns what each peer put at the position of the rank. All runs of
the same programs issue and complete the same exchanges with the same items on every rank, end well
on the same ranks with the same values, and end alike if there are no more than two ranks. -/
theorem exchanges_exact (run : Run programs) :
    (∀ rank number call sent, run.Issues rank number call sent →
      ((∃ received, run.Returns rank number call received) ↔
        ∀ peer, ∃ items, run.Issues peer number call items)) ∧
    (∀ rank number call received, run.Returns rank number call received →
      ∀ (peer : Fin size) items, run.Issues peer number call items →
        received.get peer = items.get rank) ∧
    ∀ other : Run programs,
      (∀ rank number call, (∀ sent, run.Issues rank number call sent ↔
          other.Issues rank number call sent) ∧
        ∀ received, run.Returns rank number call received ↔
          other.Returns rank number call received) ∧
      (∀ rank, run.last.completed rank = other.last.completed rank) ∧
      (∀ rank value, run.outcome rank = some (.ok value) ↔ other.outcome rank = some (.ok value)) ∧
      (size ≤ 2 → ∀ rank, run.outcome rank = other.outcome rank) := by
  refine ⟨fun rank number call sent issued => ?_, fun rank number call received returned => ?_,
    fun other => ⟨fun rank number call => ⟨fun sent => ?_, fun received => ?_⟩,
      fun rank => run.completed_eq other, fun rank value => run.outcome_ok_iff.trans other.outcome_ok_iff.symm,
      fun pair rank => run.outcome_eq other pair⟩⟩
  · -- An exchange returns where all ranks meet, and issuing the same call is all that meeting is.
    simp only [Run.returns_iff, Run.issues_iff]
    constructor
    · intro ⟨_, items, meet, _⟩ peer
      exact ⟨items peer, meet peer⟩
    · intro each
      choose items meet using each
      exact ⟨_, items, meet, rfl⟩
  · obtain ⟨sent, meet, rfl⟩ := run.returns_iff.mp returned
    intro peer items issued
    obtain ⟨fault, next, stands⟩ := run.issues_iff.mp issued
    obtain ⟨_, same⟩ := meet.unique stands
    dsimp only at same
    simp [same]
  · rw [run.issues_iff, other.issues_iff]
  · rw [run.returns_iff, other.returns_iff]

end Schedules

/-- Two ranks that gather bytes together, and then part: one of them gathers words, the other one exchanges
counts. -/
def parting : Vector (Program 2 ExchangeError (List UInt8)) 2 :=
  let gathers (byte : UInt8) (next : List UInt8 → Program 2 ExchangeError (List UInt8)) :
      Program 2 ExchangeError (List UInt8) :=
    .exchange (.gather Wire.byte) (.replicate 2 byte) id fun bytes => next bytes.toList
  -- What was gathered would be the result of either rank.
  #v[gathers 3 fun bytes => .exchange (.gather Wire.word) (.replicate 2 1) id fun _ => .done bytes,
    gathers 5 fun bytes => .exchange .counts (.replicate 2 0) id fun _ => .done bytes]

/-- Ranks that part after an exchange get the bytes of both ranks from it, and nothing from the exchanges in
which they differ, and they end alike in all runs. -/
theorem exchanges_exact_parting : ∃ run : Run parting,
    (∀ rank, ∃ received, run.Returns rank 0 (.gather Wire.byte) received ∧ received.toList = [3, 5]) ∧
    (¬ ∃ received, run.Returns 0 1 (.gather Wire.word) received) ∧
    (¬ ∃ received, run.Returns 1 1 .counts received) ∧
    ∀ other : Run parting, ∀ rank, run.outcome rank = other.outcome rank := by
  obtain ⟨run⟩ := Run.exists_of_programs parting
  obtain ⟨returns, exact, alike⟩ := exchanges_exact run
  -- The stages of the two ranks tell what they issue in their first and in their second exchange.
  have first : ∀ rank, run.Issues rank 0 (.gather Wire.byte) (.replicate 2 (![3, 5] rank)) :=
    Fin.forall_fin_two.mpr ⟨run.issues_iff.mpr ⟨_, _, rfl⟩, run.issues_iff.mpr ⟨_, _, rfl⟩⟩
  have words : run.Issues 0 1 (.gather Wire.word) (.replicate 2 1) := run.issues_iff.mpr ⟨_, _, rfl⟩
  have counts : run.Issues 1 1 .counts (.replicate 2 0) := run.issues_iff.mpr ⟨_, _, rfl⟩
  refine ⟨run, fun rank => ?_, fun returned => ?_, fun returned => ?_, fun other =>
    (alike other).2.2.2 (Nat.le_refl 2)⟩
  · obtain ⟨received, returned⟩ := (returns rank 0 _ _ (first rank)).mpr fun peer => ⟨_, first peer⟩
    -- What comes from a rank is its byte, wherever it goes to.
    have bytes : ∀ peer, received.get peer = ![3, 5] peer := fun peer => by
      rw [exact rank 0 _ _ returned peer _ (first peer)]
      exact Vector.getElem_replicate rank.isLt
    have all : received = #v[3, 5] := Vector.ext fun
      | 0, _ => bytes 0
      | 1, _ => bytes 1
    exact ⟨received, returned, all ▸ rfl⟩
  · -- The other rank has issued another exchange in its place, and a stage is one program only.
    obtain ⟨items, issued⟩ := (returns 0 1 _ _ words).mp returned 1
    obtain ⟨_, _, stands⟩ := run.issues_iff.mp issued
    obtain ⟨_, _, other⟩ := run.issues_iff.mp counts
    rw [stands] at other
    cases other
  · obtain ⟨items, issued⟩ := (returns 1 1 _ _ counts).mp returned 0
    obtain ⟨_, _, stands⟩ := run.issues_iff.mp issued
    obtain ⟨_, _, other⟩ := run.issues_iff.mp words
    rw [stands] at other
    cases other

end DistGraph.Cluster
