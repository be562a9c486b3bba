import DistGraph.Proofs.Cluster.Blame

/-! Ranks that stay in step until some of them fail, and the failures that all of them come to then. -/

namespace DistGraph

variable [Payloads] {size : Nat} {ε α β : Type}

/-- The ranks take part in the same exchanges until they come to their results, or until some of them
fail while the others wait. -/
inductive InStep (blame : Blame size ε) (reaches : (Fin size → Except ε α) → Prop) :
    (programs : Fin size → Program size ε α) → Prop where
  /-- All ranks end. -/
  | ends {programs : Fin size → Program size ε α} (pending : Fin size → Except ε α)
      (ended : ∀ rank, programs rank = .ofExcept (pending rank)) (here : reaches pending) :
      InStep blame reaches programs
  /-- Some ranks have failed, and all others want to take part in an exchange. -/
  | halts {programs : Fin size → Program size ε α} {start : Fin size → Except ε Unit}
      (fair : blame.Fair start) (someone : ∃ rank error, start rank = .error error)
      (fails : ∀ rank error, start rank = .error error → programs rank = .fail error)
      (waits : ∀ rank, start rank = .ok () → ∃ call sent fault next,
        programs rank = .exchange call sent fault next ∧ ∀ error, blame.peers rank (fault error)) :
      InStep blame reaches programs
  /-- All ranks take part in the same exchange, and stay in step after it. -/
  | meets {programs : Fin size → Program size ε α} {call : Call}
      {sent : Fin size → Vector call.Item size} {fault : Fin size → ExchangeError → ε}
      {next : Fin size → Vector call.Item size → Program size ε α}
      (stands : ∀ rank, programs rank = .exchange call (sent rank) (fault rank) (next rank))
      (later : InStep blame reaches fun rank => next rank (Cluster.delivered sent rank)) :
      InStep blame reaches programs

/-- How a rank ends that stands at a program when not all ranks meet. -/
def Program.Ends (outcome : Except ε α) : Program size ε α → Prop
  -- An exchange without all ranks fails in some way.
  | .done value => outcome = .ok value
  | .fail error => outcome = .error error
  | .exchange _ _ fault _ => ∃ error, outcome = .error (fault error)

/-- A rank that has ended ends in just that way. -/
@[simp] theorem Program.ends_ofExcept_iff {pending outcome : Except ε α} :
    (Program.ofExcept pending : Program size ε α).Ends outcome ↔ outcome = pending := by
  cases pending <;> exact Iff.rfl

namespace Cluster

/-- A rank that has ended keeps all others from meeting. -/
theorem Meet.ne_ofExcept {programs : Vector (Program size ε α) size} {call : Call}
    {sent : Fin size → Vector call.Item size} (meet : Meet programs call sent) (rank : Fin size)
    (outcome : Except ε α) : programs.get rank ≠ .ofExcept outcome := by
  cases outcome with
  | ok value => exact meet.ne_done rank value
  | error error => exact meet.ne_fail rank error

/-- All ranks end from the first stage in which they do not meet. -/
theorem Run.exists_outcome {programs : Vector (Program size ε α) size} (run : Run programs) {count : Nat}
    (met : MetUpTo programs count) (apart : ∀ call sent, ¬ Meet (stage programs count) call sent)
    (rank : Fin size) :
    ∃ outcome, run.outcome rank = some outcome ∧ ((stage programs count).get rank).Ends outcome := by
  obtain ⟨posted, opened, kept⟩ := run.consistent
  have passes := kept.completed_of_finished run.finished rank
  -- All ranks complete the exchanges up to this stage, and none completes the one that is not met.
  have level : run.last.completed rank = count := by
    rcases Nat.lt_trichotomy (run.last.completed rank) count with before | same | beyond
    · exact absurd ((passes _).mpr (met _ before)) (Nat.lt_irrefl _)
    · exact same
    · obtain ⟨call, sent, meet⟩ := (passes count).mp beyond
      exact absurd meet (apart call sent)
  obtain ⟨outcome, known, why⟩ := kept.ended_of_finished run.finished rank
  refine ⟨outcome, known, ?_⟩
  rw [level] at why
  cases why with
  | done stands =>
    rw [stands]
    exact rfl
  | failed stands =>
    rw [stands]
    exact rfl
  | broken stands unmet cause =>
    rw [stands]
    exact ⟨_, rfl⟩

variable {blame : Blame size ε} {reaches : (Fin size → Except ε α) → Prop}

/-- Ranks that stay in step from some stage on come to their results, or all of them fail. -/
theorem Run.exists_outcomes_from {programs : Vector (Program size ε α) size} (run : Run programs)
    {reached : Fin size → Program size ε α} (inStep : InStep blame reaches reached) {count : Nat}
    (met : MetUpTo programs count) (stands : ∀ rank, (stage programs count).get rank = reached rank) :
    ∃ outcomes, (∀ rank, run.outcome rank = some (outcomes rank)) ∧
      (reaches outcomes ∨ blame.Stops outcomes) := by
  -- The induction follows the ranks from stage to stage.
  induction inStep generalizing count with
  | ends pending ended here =>
    have level : ∀ rank, (stage programs count).get rank = .ofExcept (pending rank) :=
      fun rank => (stands rank).trans (ended rank)
    refine ⟨pending, fun rank => ?_, .inl here⟩
    obtain ⟨outcome, known, why⟩ :=
      run.exists_outcome met (fun _ _ meet => meet.ne_ofExcept rank _ (level rank)) rank
    rw [level, Program.ends_ofExcept_iff] at why
    rw [known, why]
  | halts fair someone fails waits =>
    -- A rank that has failed takes part in no exchange, so that every rank ends right here.
    have apart : ∀ call sent, ¬ Meet (stage programs count) call sent := by
      intro call sent meet
      obtain ⟨culprit, reason, failed⟩ := someone
      exact meet.ne_fail culprit reason ((stands culprit).trans (fails culprit reason failed))
    choose outcomes known why using run.exists_outcome met apart
    refine ⟨outcomes, known, .inr (fair.stops someone (fun rank error failing => ?_) fun rank held => ?_)⟩
    · have ended := why rank
      rw [stands, fails rank error failing] at ended
      exact ended
    · -- A rank that waits is told why its exchange broke.
      obtain ⟨call, sent, fault, next, made, told⟩ := waits rank held
      have ended := why rank
      rw [stands, made] at ended
      obtain ⟨error, same⟩ := ended
      exact ⟨fault error, same, told error⟩
  | meets made later ih =>
    have level := fun rank => (stands rank).trans (made rank)
    have meet : Meet (stage programs count) _ _ := fun rank => ⟨_, _, level rank⟩
    exact ih (met.succ meet) fun rank => stage_succ_meet meet (level rank)

/-- Ranks that stay in step come to their results in every run, or all of them fail. -/
theorem Run.exists_outcomes {programs : Fin size → Program size ε α} (run : Run (Vector.ofFn programs))
    (inStep : InStep blame reaches programs) :
    ∃ outcomes, (∀ rank, run.outcome rank = some (outcomes rank)) ∧
      (reaches outcomes ∨ blame.Stops outcomes) :=
  run.exists_outcomes_from inStep .zero fun rank => by simp

end Cluster

namespace InStep

variable {blame : Blame size ε} {reaches : (Fin size → Except ε α) → Prop}
  {programs : Fin size → Program size ε α}

/-- Results may be described in a weaker way. -/
theorem mono {other : (Fin size → Except ε α) → Prop} (inStep : InStep blame reaches programs)
    (weaker : ∀ pending, reaches pending → other pending) : InStep blame other programs := by
  -- Only where all ranks end something is said of their results.
  induction inStep with
  | ends pending ended here => exact .ends pending ended (weaker pending here)
  | halts fair someone fails waits => exact .halts fair someone fails waits
  | meets stands _ ih => exact .meets stands ih

/-- Ranks that stay in step go on from what they come to, those that have failed having failed. -/
theorem bind {later : Fin size → α → Program size ε β} {goal : (Fin size → Except ε β) → Prop}
    (inStep : InStep blame reaches programs)
    (onwards : ∀ pending, reaches pending →
      InStep blame goal fun rank => Program.ofExcept (pending rank) >>= later rank) :
    InStep blame goal fun rank => programs rank >>= later rank := by
  induction inStep with
  | @ends programs pending ended here =>
    have same : (fun rank => programs rank >>= later rank) =
        fun rank => Program.ofExcept (pending rank) >>= later rank :=
      funext fun rank => by rw [ended rank]
    rw [same]
    exact onwards pending here
  | @halts programs start fair someone fails waits =>
    -- Ranks that have failed fail on, and those that wait do so in front of what comes later.
    refine .halts fair someone (fun rank error failing => ?_) fun rank held => ?_
    · rw [fails rank error failing]
      rfl
    · obtain ⟨call, sent, fault, next, made, told⟩ := waits rank held
      refine ⟨call, sent, fault, fun received => next received >>= later rank, ?_, told⟩
      rw [made]
      rfl
  | @meets programs call sent fault next stands _ ih =>
    have onwards : ∀ rank, (programs rank >>= later rank) = .exchange call (sent rank) (fault rank)
        fun received => next rank received >>= later rank := fun rank => by rw [stands rank]; rfl
    exact .meets onwards ih

end InStep

/-- Ranks are judged by whether they stay in step, which only one way to go on has to. -/
def Judgement.inStep (blame : Blame size ε) : Judgement size ε where
  holds reaches programs _ := InStep blame reaches programs
  ends pending here := .ends pending (fun _ => rfl) here
  mono := InStep.mono
  bind := InStep.bind

/-- Ranks of which those that have not failed know some facts stay in step from there. -/
def Leads (blame : Blame size ε) (facts : Fin size → Prop) (programs : Fin size → Program size ε α)
    (reaches : (Fin size → Except ε α) → Prop) : Prop :=
  -- The ranks that have not failed wait for those that have.
  (Judgement.inStep blame).From blame facts programs programs reaches

namespace Leads

variable {blame : Blame size ε} {facts middle : Fin size → Prop}
  {programs : Fin size → Program size ε α} {reaches : (Fin size → Except ε α) → Prop}

/-- Ranks that start from nothing stay in step. -/
theorem inStep (leads : Leads blame (fun _ => True) programs reaches) : InStep blame reaches programs :=
  Judgement.From.start leads

/-- More may be known at the start, and less in the end. -/
theorem mono {other : Fin size → Prop} {goal : (Fin size → Except ε α) → Prop}
    (leads : Leads blame facts programs reaches) (stronger : ∀ rank, other rank → facts rank)
    (weaker : ∀ pending, reaches pending → goal pending) : Leads blame other programs goal :=
  Judgement.From.mono leads stronger weaker

/-- Programs may be replaced by others that are equal where the facts hold. -/
theorem congr {others : Fin size → Program size ε α} (leads : Leads blame facts programs reaches)
    (same : ∀ rank, facts rank → others rank = programs rank) : Leads blame facts others reaches :=
  Judgement.From.congr leads same same

/-- What follows goes on from the known values. -/
theorem after {known : Fin size → α} {later : Fin size → α → Program size ε β}
    {goal : (Fin size → Except ε β) → Prop}
    (first : Leads blame facts programs (blame.Pending middle known))
    (second : Leads blame middle (fun rank => later rank (known rank)) goal) :
    Leads blame facts (fun rank => programs rank >>= later rank) goal :=
  Judgement.From.after first second

/-- What follows from the facts of every rank may be assumed. -/
theorem given {known : Fin size → α} {claim : Prop} (follows : ∀ rank, facts rank → claim)
    (leads : claim → Leads blame facts programs (blame.Pending middle known)) :
    Leads blame facts programs (blame.Pending middle known) :=
  Judgement.From.given follows leads

/-- Ranks may compute by themselves, and may fail there with failures of their own. -/
theorem ofExcept {computed : Fin size → Except ε α} {known : Fin size → α}
    (sound : ∀ rank value, facts rank → computed rank = .ok value → middle rank ∧ value = known rank)
    (own : ∀ rank error, facts rank → computed rank = .error error → blame.own rank error) :
    Leads blame facts (fun rank => Program.ofExcept (computed rank)) (blame.Pending middle known) := by
  intro start pending
  -- A rank that had failed before does not get to compute.
  refine .ends (fun rank => start rank >>= fun _ => computed rank) (fun rank => ?_) ⟨?_, ?_⟩
  · cases start rank <;> rfl
  · intro rank value made
    obtain ⟨⟨⟩, held, made⟩ := bind_eq_ok_iff.mp made
    exact sound rank value (pending.sound rank () held).1 made
  · refine pending.fair.carry (fun rank error failing => ?_) fun rank error failing => ?_
    · simp [failing]
    · cases held : start rank with
      | error earlier => exact .inl (by simpa [held] using failing)
      | ok =>
        have here : computed rank = .error error := by simpa [held] using failing
        exact .inr (own rank error (pending.sound rank () held).1 here)

/-- What ranks compute by themselves is known of those that do not fail. -/
theorem exists_ofExcept [Nonempty α] {computed : Fin size → Except ε α}
    (own : ∀ rank error, facts rank → computed rank = .error error → blame.own rank error) :
    ∃ known : Fin size → α, Leads blame facts (fun rank => Program.ofExcept (computed rank))
      (blame.Pending (fun rank => facts rank ∧ computed rank = .ok (known rank)) known) := by
  -- A rank that fails may hold any value, as nothing is said of it.
  have each : ∀ rank, ∃ result, ∀ value, computed rank = .ok value → value = result := by
    intro rank
    cases computed rank with
    | error error => exact ⟨Classical.ofNonempty, fun _ made => nomatch made⟩
    | ok result => exact ⟨result, fun _ made => (Except.ok.inj made).symm⟩
  choose known same using each
  refine ⟨known, ofExcept (fun rank value fact made => ?_) own⟩
  obtain rfl := same rank value made
  exact ⟨⟨fact, made⟩, rfl⟩

/-- What ranks hold already they come to without fail. -/
theorem pure (known : Fin size → α) :
    Leads blame facts (fun rank => Pure.pure (known rank)) (blame.Pending facts known) := by
  -- It is a computation that fails nowhere.
  have ended : Leads blame facts (fun rank => Program.ofExcept (.ok (known rank)))
      (blame.Pending facts known) :=
    ofExcept (fun _ _ fact made => ⟨fact, (Except.ok.inj made).symm⟩) fun _ _ _ failing => nomatch failing
  exact ended

/-- Ranks may check something by themselves before they go on. -/
theorem require {computed : Fin size → Except ε β}
    (sound : ∀ rank value, facts rank → computed rank = .ok value → middle rank)
    (own : ∀ rank error, facts rank → computed rank = .error error → blame.own rank error)
    (second : Leads blame middle programs reaches) :
    Leads blame facts (fun rank => Program.ofExcept (computed rank) >>= fun _ => programs rank)
      reaches := by
  -- What is found out by the check is dropped, as only that it passed counts.
  have checked : Leads blame facts
      (fun rank => Program.ofExcept ((computed rank).map fun _ => ()))
      (blame.Pending middle fun _ => ()) := by
    refine ofExcept (fun rank value fact made => ?_) fun rank error fact failing => ?_
    · cases found : computed rank with
      | error error => simp [found] at made
      | ok result => exact ⟨sound rank result fact found, rfl⟩
    · apply own rank error fact
      cases found : computed rank <;> simp_all
  have onwards : Leads blame facts (fun rank =>
      Program.ofExcept ((computed rank).map fun _ => ()) >>= fun _ => programs rank) reaches :=
    checked.after second
  refine onwards.congr fun rank _ => ?_
  cases computed rank <;> rfl

section Exchange

variable {call : Call} {sent : Fin size → Vector call.Item size} {fault : Fin size → ExchangeError → ε}

/-- An exchange that all ranks get to takes place, and is followed by what each rank makes of it. -/
theorem exchange_ofExcept {computed : Fin size → Vector call.Item size → Except ε α}
    (told : ∀ rank, facts rank → ∀ error, blame.peers rank (fault rank error))
    (ends : (∀ rank, facts rank) → reaches fun rank => computed rank (Cluster.delivered sent rank)) :
    Leads blame facts (fun rank => .exchange call (sent rank) (fault rank)
      fun received => .ofExcept (computed rank received)) reaches := by
  intro start pending
  -- If a rank has failed the others wait for it, and otherwise all of them meet.
  by_cases failing : ∃ rank error, start rank = .error error
  · refine .halts pending.fair failing (fun rank error failed => ?_) fun rank held => ?_
    · rw [failed]
      rfl
    · rw [held]
      exact ⟨_, _, _, _, rfl, told rank (pending.sound rank () held).1⟩
  · have passed : ∀ rank, start rank = .ok () := by
      intro rank
      cases held : start rank with
      | error error => exact absurd ⟨rank, error, held⟩ failing
      | ok => rfl
    have stands : ∀ rank, (Program.ofExcept (start rank) >>= fun _ =>
        Program.exchange call (sent rank) (fault rank) fun received =>
          .ofExcept (computed rank received)) = .exchange call (sent rank) (fault rank) fun received =>
            .ofExcept (computed rank received) := fun rank => by rw [passed rank]; rfl
    exact .meets stands (.ends _ (fun rank => rfl)
      (ends fun rank => (pending.sound rank () (passed rank)).1))

/-- In an exchange that all ranks get to they receive what the others put at their position. -/
theorem exchange (told : ∀ rank, facts rank → ∀ error, blame.peers rank (fault rank error)) :
    Leads blame facts (fun rank => .exchange call (sent rank) (fault rank) .done)
      (blame.Pending (fun _ => ∀ rank, facts rank) (Cluster.delivered sent)) := by
  -- What is received is the result, of which nothing more is computed.
  have ended : Leads blame facts (fun rank => .exchange call (sent rank) (fault rank)
      fun received => .ofExcept (.ok received))
      (blame.Pending (fun _ => ∀ rank, facts rank) (Cluster.delivered sent)) :=
    exchange_ofExcept told fun all =>
      ⟨fun _ _ made => ⟨all, (Except.ok.inj made).symm⟩, .inl fun _ _ failing => nomatch failing⟩
  exact ended

end Exchange

end Leads

end DistGraph
