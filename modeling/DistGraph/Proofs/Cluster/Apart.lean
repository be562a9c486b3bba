import DistGraph.Proofs.Cluster.InStep

/-! Ranks that do not get to the end together: what a rank waits for first, and how all of them end. -/

namespace DistGraph

variable [Payloads] {size : Nat} {ε α β : Type}

namespace Program

/-- Whether a program stands at an exchange, and ends in a certain way if communication fails there. -/
def Waits (call : Call) (ends : ε → Prop) (program : Program size ε α) : Prop :=
  ∃ sent fault next, program = .exchange call sent fault next ∧ ∀ error, ends (fault error)

/-- Whether a program takes part in given exchanges first, unless it fails. -/
def Begins : List Call → Program size ε α → Prop
  -- What is received may decide whether the program fails, but not how it goes on.
  | [], _ => True
  | call :: calls, program => (∃ error, program = .fail error) ∨ ∃ sent fault next,
      program = .exchange call sent fault next ∧ ∀ received, (next received).Begins calls

/-- What follows an exchange does not matter before it. -/
theorem Waits.bind {call : Call} {ends : ε → Prop} {program : Program size ε α}
    (waits : program.Waits call ends) (later : α → Program size ε β) :
    (program >>= later).Waits call ends := by
  obtain ⟨sent, fault, next, rfl, told⟩ := waits
  exact ⟨sent, fault, fun received => next received >>= later, rfl, told⟩

/-- What a rank computes by itself before an exchange does not matter if it succeeds. -/
theorem Waits.ofExcept {call : Call} {ends : ε → Prop} {computed : Except ε α}
    {later : α → Program size ε β} {value : α} (made : computed = .ok value)
    (waits : (later value).Waits call ends) : (Program.ofExcept computed >>= later).Waits call ends := by
  rw [made]
  exact waits

/-- A program that waits takes part in the exchange that it waits for. -/
theorem Waits.begins {call : Call} {ends : ε → Prop} {program : Program size ε α}
    (waits : program.Waits call ends) : program.Begins [call] := by
  obtain ⟨sent, fault, next, rfl, -⟩ := waits
  exact .inr ⟨sent, fault, next, rfl, fun _ => trivial⟩

namespace Begins

variable {calls : List Call} {program : Program size ε α}

/-- What follows the exchanges does not matter before them. -/
theorem bind (begins : program.Begins calls) (later : α → Program size ε β) :
    (program >>= later).Begins calls := by
  -- The induction is on the exchanges, which the later work comes after.
  induction calls generalizing program with
  | nil => trivial
  | cons call calls ih =>
    obtain ⟨error, rfl⟩ | ⟨sent, fault, next, rfl, onwards⟩ := begins
    · exact .inl ⟨error, rfl⟩
    · exact .inr ⟨sent, fault, fun received => next received >>= later, rfl,
        fun received => ih (onwards received)⟩

/-- A rank may compute by itself before the exchanges, and fail there. -/
theorem ofExcept {later : α → Program size ε β} (computed : Except ε α)
    (begins : ∀ value, (later value).Begins calls) :
    (Program.ofExcept computed >>= later).Begins calls := by
  -- A failure comes before all exchanges.
  cases computed with
  | ok value => exact begins value
  | error error =>
    cases calls with
    | nil => trivial
    | cons call calls => exact .inl ⟨error, rfl⟩

section Some

variable (begins : program.Begins calls) (more : 0 < calls.length)

include begins more

/-- A program that begins with exchanges is not done before them. -/
theorem not_done (value : α) : program ≠ .done value := by
  rintro rfl
  -- With an exchange ahead it has failed or stands at one.
  obtain ⟨call, later, rfl⟩ := List.exists_cons_of_length_pos more
  obtain ⟨_, made⟩ | ⟨_, _, _, made, -⟩ := begins
  · cases made
  · cases made

/-- A program that stands at an exchange begins with that one, and with the others after it. -/
theorem of_exchange {call : Call} {sent : Vector call.Item size} {fault : ExchangeError → ε}
    {next : Vector call.Item size → Program size ε α} (stands : program = .exchange call sent fault next) :
    calls[0]? = some call ∧ ∀ received, (next received).Begins calls.tail := by
  -- It stands at an exchange, so that it has not failed before.
  obtain ⟨own, later, rfl⟩ := List.exists_cons_of_length_pos more
  obtain ⟨_, failed⟩ | ⟨_, _, _, made, onwards⟩ := begins
  · cases stands.symm.trans failed
  · cases stands.symm.trans made
    exact ⟨rfl, onwards⟩

end Some

end Begins

end Program

/-- All ranks come to a point where none of them is done and where they do not meet. -/
inductive Doomed : (programs : Fin size → Program size ε α) → Prop where
  /-- The ranks do not meet here. -/
  | apart {programs : Fin size → Program size ε α} (busy : ∀ rank value, programs rank ≠ .done value)
      (unmet : ∀ call sent, ¬ Cluster.Meet (Vector.ofFn programs) call sent) : Doomed programs
  /-- All ranks take part in the same exchange, and come to such a point after it. -/
  | meets {programs : Fin size → Program size ε α} {call : Call}
      {sent : Fin size → Vector call.Item size} {fault : Fin size → ExchangeError → ε}
      {next : Fin size → Vector call.Item size → Program size ε α}
      (stands : ∀ rank, programs rank = .exchange call (sent rank) (fault rank) (next rank))
      (later : Doomed fun rank => next rank (Cluster.delivered sent rank)) : Doomed programs

/-- Ranks that come to such a point from some stage on all fail. -/
theorem Cluster.Run.exists_failure_from {programs : Vector (Program size ε α) size} (run : Run programs)
    {reached : Fin size → Program size ε α} (doomed : Doomed reached) {count : Nat}
    (met : MetUpTo programs count) (stands : stage programs count = Vector.ofFn reached) (rank : Fin size) :
    ∃ error, run.outcome rank = some (.error error) := by
  -- The induction follows the ranks from stage to stage.
  induction doomed generalizing count with
  | @apart reached busy unmet =>
    rw [← stands] at unmet
    obtain ⟨outcome, known, why⟩ := run.exists_outcome met unmet rank
    rw [stands, ofFn_get] at why
    rw [known]
    cases found : reached rank with
    | done value => exact absurd found (busy rank value)
    | fail error =>
      rw [found] at why
      exact ⟨error, congrArg some why⟩
    | exchange call sent fault next =>
      rw [found] at why
      obtain ⟨error, ended⟩ := why
      exact ⟨_, congrArg some ended⟩
  | @meets reached call sent fault next made later ih =>
    -- The ranks meet once more, and are as doomed in the next stage.
    have here : ∀ peer : Fin size, (stage programs count).get peer =
        .exchange call (sent peer) (fault peer) (next peer) := fun peer => by simp [stands, made]
    have meet : Meet (stage programs count) call sent := fun peer => ⟨_, _, here peer⟩
    refine ih (met.succ meet) (Vector.ext fun peer inside => ?_)
    have goes := stage_succ_meet meet (here ⟨peer, inside⟩)
    rwa [← ofFn_get (fun rank => next rank (delivered sent rank))] at goes

/-- Ranks that come to a point where they do not meet all fail in every run. -/
theorem Cluster.Run.exists_failure {programs : Fin size → Program size ε α}
    (run : Run (Vector.ofFn programs)) (doomed : Doomed programs) (rank : Fin size) :
    ∃ error, run.outcome rank = some (.error error) :=
  run.exists_failure_from doomed .zero rfl rank

namespace Doomed

variable {programs : Fin size → Program size ε α}

/-- A rank that has failed keeps all others from getting to the end. -/
theorem of_failed (culprit : Fin size) {reason : ε} (failed : programs culprit = .fail reason)
    (busy : ∀ rank value, programs rank ≠ .done value) : Doomed programs := by
  exact .apart busy fun call sent meet => meet.ne_fail culprit reason (by simpa using failed)

/-- Two ranks that begin with different exchanges keep all others from getting to the end. -/
theorem of_begins {calls : Fin size → List Call} (left right : Fin size) (place : Nat)
    (begins : ∀ rank, (programs rank).Begins (calls rank)) (within : ∀ rank, place < (calls rank).length)
    (differ : (calls left)[place]? ≠ (calls right)[place]?) : Doomed programs := by
  -- The induction is on the exchanges before the one in which the two ranks do not meet.
  induction place generalizing programs calls with
  | zero =>
    refine .apart (fun rank => (begins rank).not_done (within rank)) fun call sent meet => differ ?_
    have same : ∀ rank, (calls rank)[0]? = some call := by
      intro rank
      obtain ⟨_, _, stands⟩ := meet rank
      exact ((begins rank).of_exchange (within rank) (by simpa using stands)).1
    rw [same, same]
  | succ place ih =>
    have more : ∀ rank, 0 < (calls rank).length := fun rank => Nat.zero_lt_of_lt (within rank)
    by_cases met : ∃ call sent, Cluster.Meet (Vector.ofFn programs) call sent
    · obtain ⟨call, sent, meet⟩ := met
      choose fault next stands using meet
      simp only [Cluster.ofFn_get] at stands
      have rest : ∀ rank, (next rank (Cluster.delivered sent rank)).Begins (calls rank).tail :=
        fun rank => ((begins rank).of_exchange (more rank) (stands rank)).2 _
      have longer : ∀ rank, place < (calls rank).tail.length := by
        intro rank
        rw [List.length_tail]
        exact Nat.lt_sub_of_add_lt (within rank)
      exact .meets stands (ih rest longer (by simpa only [List.getElem?_tail] using differ))
    · push Not at met
      exact .apart (fun rank => (begins rank).not_done (more rank)) met

variable {blame : Blame size ε} {reaches : (Fin size → Except ε α) → Prop}

/-- Ranks that stay in step up to a point from which they do not get to the end do not get there. -/
theorem of_inStep {later : Fin size → α → Program size ε β} (inStep : InStep blame reaches programs)
    (onwards : ∀ pending, reaches pending →
      Doomed fun rank => Program.ofExcept (pending rank) >>= later rank) :
    Doomed fun rank => programs rank >>= later rank := by
  induction inStep with
  | @ends programs pending ended here =>
    have same : (fun rank => programs rank >>= later rank) =
        fun rank => Program.ofExcept (pending rank) >>= later rank :=
      funext fun rank => by rw [ended rank]
    rw [same]
    exact onwards pending here
  | @halts programs start fair someone fails waits =>
    -- One rank has failed already, and those that have not are not done either.
    obtain ⟨culprit, reason, failed⟩ := someone
    have gone : (programs culprit >>= later culprit) = .fail reason := by
      rw [fails culprit reason failed]
      rfl
    refine of_failed culprit gone fun rank value done => ?_
    cases held : start rank with
    | error error =>
      rw [fails rank error held] at done
      cases done
    | ok =>
      obtain ⟨call, sent, fault, next, made, -⟩ := waits rank held
      rw [made] at done
      cases done
  | @meets programs call sent fault next stands _ ih =>
    have onwards : ∀ rank, (programs rank >>= later rank) = .exchange call (sent rank) (fault rank)
        fun received => next rank received >>= later rank := fun rank => by rw [stands rank]; rfl
    exact .meets onwards ih

end Doomed

end DistGraph
