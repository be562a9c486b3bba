import DistGraph.Proofs.Cluster.Retrace

/-! Ranks that do the same as others until some of them fail for lack of something. -/

namespace DistGraph

variable [Payloads] {size : Nat} {ε ζ α β : Type} {lacks broken : ε → Prop}

/-- Whether a program does what another one does until it may fail for lack of something. Failed
communication ends both in the same way. -/
inductive Program.Trails (lacks broken : ε → Prop) : Program size ε α → Program size ε α → Prop where
  /-- The program lacks something, whatever the other one goes on to do. -/
  | short {error : ε} (lacking : lacks error) (other : Program size ε α) :
      Trails lacks broken (.fail error) other
  /-- Both are done with the same value. -/
  | done (value : α) : Trails lacks broken (.done value) (.done value)
  /-- Both have failed with the same error. -/
  | fail (error : ε) : Trails lacks broken (.fail error) (.fail error)
  /-- Both send the same in the same exchange, and go on like this from whatever they receive. -/
  | exchange {call : Call} (sent : Vector call.Item size) {fault : ExchangeError → ε}
      (told : ∀ error, broken (fault error)) {next later : Vector call.Item size → Program size ε α}
      (onwards : ∀ received, Trails lacks broken (next received) (later received)) :
      Trails lacks broken (.exchange call sent fault next) (.exchange call sent fault later)

/-- A rank that computes by itself in two steps does so in one program after the other. -/
theorem Program.ofExcept_bind (first : Except ε α) (later : α → Except ε β) :
    (Program.ofExcept (first >>= later) : Program size ε β) =
      Program.ofExcept first >>= fun value => Program.ofExcept (later value) := by
  cases first <;> rfl

namespace Program.Trails

/-- What ranks compute by themselves they compute alike. -/
theorem ofExcept (computed : Except ε α) :
    Trails lacks broken (Program.ofExcept computed : Program size ε α) (.ofExcept computed) := by
  cases computed with
  | ok value => exact .done value
  | error error => exact .fail error

/-- Ranks that hold the same come to the same. -/
theorem pure (value : α) :
    Trails lacks broken (Pure.pure value : Program size ε α) (Pure.pure value) :=
  .done value

/-- An exchange that takes place for both is the same for both. -/
theorem issue {call : Call} (sent : Vector call.Item size) {broken : Failure → Prop}
    {lacks : Failure → Prop} (told : ∀ error, broken (.comm error)) :
    Trails lacks broken (Program.issue call sent) (Program.issue call sent) :=
  .exchange sent told fun received => .done received

/-- Programs that trail others are followed by programs that do. -/
theorem bind {program other : Program size ε α} {later otherLater : α → Program size ε β}
    (first : Trails lacks broken program other)
    (second : ∀ value, Trails lacks broken (later value) (otherLater value)) :
    Trails lacks broken (program >>= later) (other >>= otherLater) := by
  -- A failure keeps what follows from starting, whatever the other program does then.
  induction first with
  | short lacking other => exact .short lacking _
  | done value => exact second value
  | fail error => exact .fail error
  | exchange sent told _ ih => exact .exchange sent told ih

/-- Failures may be told in another way. -/
theorem mapError {otherLacks otherBroken : ζ → Prop} {program other : Program size ε α}
    (trails : Trails lacks broken program other) {tell : ε → ζ}
    (short : ∀ error, lacks error → otherLacks (tell error))
    (breaks : ∀ error, broken error → otherBroken (tell error)) :
    Trails otherLacks otherBroken (program.mapError tell) (other.mapError tell) := by
  -- A failure is told where it happens.
  induction trails with
  | short lacking other => exact .short (short _ lacking) _
  | done value => exact .done value
  | fail error => exact .fail (tell error)
  | exchange sent told _ ih => exact .exchange sent (fun error => breaks _ (told error)) ih

/-- Entries are computed one after the other, until one of them lacks something. -/
theorem mapM {compute otherCompute : α → Except ε β}
    (each : ∀ entry, Trails lacks broken (Program.ofExcept (compute entry) : Program size ε β)
      (.ofExcept (otherCompute entry))) (entries : List α) :
    Trails lacks broken (Program.ofExcept (entries.mapM compute) : Program size ε (List β))
      (.ofExcept (entries.mapM otherCompute)) := by
  -- If the first entry lacks something the rest is not computed.
  induction entries with
  | nil => exact .done []
  | cons entry entries ih =>
    simp only [List.mapM_cons, ofExcept_bind]
    exact (each entry).bind fun first => ih.bind fun rest => .ofExcept _

section Inversion

variable {program other : Program size ε α} (trails : Trails lacks broken program other)

include trails

/-- A program that is done has left the other one no way to differ. -/
theorem eq_done {value : α} (ended : program = .done value) : other = .done value := by
  subst ended
  cases trails
  rfl

/-- A program that trails one that is done is done with the same value, or lacks something. -/
theorem of_done {value : α} (ended : other = .done value) :
    program = .done value ∨ ∃ error, program = .fail error ∧ lacks error := by
  subst ended
  -- A program does the same as the one it trails unless it is cut short.
  cases trails with
  | short lacking => exact .inr ⟨_, rfl, lacking⟩
  | done => exact .inl rfl

variable {call : Call} {sent : Vector call.Item size} {fault : ExchangeError → ε}
  {next : Vector call.Item size → Program size ε α}

/-- A program that takes part in an exchange does so together with the other one. -/
theorem exists_later (stands : program = .exchange call sent fault next) :
    ∃ later, other = .exchange call sent fault later ∧
      ∀ received, Trails lacks broken (next received) (later received) := by
  subst stands
  cases trails with
  | exchange _ _ onwards => exact ⟨_, rfl, onwards⟩

/-- A program that trails one in an exchange takes part in it as well, or lacks something. -/
theorem of_exchange (stands : other = .exchange call sent fault next) :
    (∃ error, program = .fail error ∧ lacks error) ∨
      (∀ error, broken (fault error)) ∧ ∃ earlier, program = .exchange call sent fault earlier ∧
        ∀ received, Trails lacks broken (earlier received) (next received) := by
  subst stands
  -- A program does the same as the one it trails unless it is cut short.
  cases trails with
  | short lacking => exact .inl ⟨_, rfl, lacking⟩
  | exchange _ told onwards => exact .inr ⟨told, _, rfl, onwards⟩

end Inversion

end Program.Trails

section Ranks

variable {programs others : Fin size → Program size ε α} {values : Fin size → α}

/-- Ranks that lack nothing leave others nothing to come to but the same values. -/
theorem Together.of_trails (together : Together programs values)
    (trails : ∀ rank, (programs rank).Trails lacks broken (others rank)) : Together others values := by
  -- A rank that takes part in all exchanges was not cut short in any.
  induction together generalizing others with
  | done ended => exact .done fun rank => (trails rank).eq_done (ended rank)
  | exchange stands _ ih =>
    choose later other onwards using fun rank => (trails rank).exists_later (stands rank)
    exact .exchange other (ih fun rank => onwards rank _)

/-- The failures of ranks that lack something, and of those that are left waiting for them. -/
def Blame.lacking (lacks broken : ε → Prop) : Blame size ε where
  -- Ranks do not lack things together, each does so by itself.
  own _ := lacks
  shared _ _ := False
  peers _ := broken

/-- Once some ranks lack something, the ranks that lack nothing wait for them in the exchange. -/
theorem inStep_of_lacking {call : Call} {sent : Fin size → Vector call.Item size}
    {fault : Fin size → ExchangeError → ε} {next : Fin size → Vector call.Item size → Program size ε α}
    {reaches : (Fin size → Except ε α) → Prop}
    (stands : ∀ rank, others rank = .exchange call (sent rank) (fault rank) (next rank))
    (trails : ∀ rank, (programs rank).Trails lacks broken (others rank))
    (someone : ∃ rank error, programs rank = .fail error ∧ lacks error) :
    InStep (Blame.lacking lacks broken) reaches programs := by
  -- Whether a rank lacks something is what it brings along to the exchange.
  have each : ∀ rank, ∃ start : Except ε Unit,
      (∀ error, start = .error error → programs rank = .fail error ∧ lacks error) ∧
      (start = .ok () → ∃ earlier, programs rank = .exchange call (sent rank) (fault rank) earlier ∧
        ∀ error, broken (fault rank error)) := by
    intro rank
    rcases (trails rank).of_exchange (stands rank) with
      ⟨error, failed, lacking⟩ | ⟨told, earlier, made, -⟩
    · exact ⟨.error error, fun _ same => Except.error.inj same ▸ ⟨failed, lacking⟩, nofun⟩
    · exact ⟨.ok (), nofun, fun _ => ⟨earlier, made, told⟩⟩
  choose start fails waits using each
  have blamed : ∀ rank error, start rank = .error error → lacks error :=
    fun rank error failing => (fails rank error failing).2
  have stopped : ∃ rank error, start rank = .error error := by
    obtain ⟨culprit, error, failed, -⟩ := someone
    cases held : start culprit with
    | error reason => exact ⟨culprit, reason, held⟩
    | ok =>
      obtain ⟨_, made, -⟩ := waits culprit held
      cases failed.symm.trans made
  refine .halts (.inl blamed) stopped (fun rank error failing => (fails rank error failing).1)
    fun rank held => ?_
  obtain ⟨earlier, made, told⟩ := waits rank held
  exact ⟨call, sent rank, fault rank, earlier, made, told⟩

/-- Ranks stay in step with others that come to values together, until some of them lack something. -/
theorem Together.inStep_of_trails (together : Together others values)
    (trails : ∀ rank, (programs rank).Trails lacks broken (others rank)) :
    InStep (Blame.lacking lacks broken) (fun outcomes => ∀ rank, outcomes rank = .ok (values rank) ∨
      ∃ error, outcomes rank = .error error ∧ lacks error) programs := by
  induction together generalizing programs with
  | @done others values ended =>
    -- After the last exchange a rank may still lack something while the others are done.
    have each : ∀ rank, ∃ outcome : Except ε α, programs rank = .ofExcept outcome ∧
        (outcome = .ok (values rank) ∨ ∃ error, outcome = .error error ∧ lacks error) := by
      intro rank
      rcases (trails rank).of_done (ended rank) with done | ⟨error, failed, lacking⟩
      · exact ⟨.ok (values rank), done, .inl rfl⟩
      · exact ⟨.error error, failed, .inr ⟨error, rfl, lacking⟩⟩
    choose outcomes same known using each
    exact .ends outcomes same known
  | @exchange others values call sent fault next stands _ ih =>
    by_cases someone : ∃ rank error, programs rank = .fail error ∧ lacks error
    · exact inStep_of_lacking stands trails someone
    · -- Nobody lacks anything yet, so that all ranks meet.
      have each : ∀ rank, ∃ earlier, programs rank = .exchange call (sent rank) (fault rank) earlier ∧
          ∀ received, Program.Trails lacks broken (earlier received) (next rank received) := by
        intro rank
        rcases (trails rank).of_exchange (stands rank) with failed | ⟨-, going⟩
        · exact absurd ⟨rank, failed⟩ someone
        · exact going
      choose earlier made onwards using each
      exact .meets made (ih fun rank => onwards rank _)

namespace Cluster

variable (trails : ∀ rank, (programs rank).Trails lacks broken (others rank))

include trails

/-- Ranks that trail others which come to values together come to the same values, unless some lack
something. Whoever comes to no value then lacks something or was left by others. -/
theorem Run.outcomes_of_trails (run : Run (Vector.ofFn programs)) (together : Together others values) :
    (∀ rank, run.outcome rank = some (.ok (values rank)) ∨
      ∃ error, run.outcome rank = some (.error error) ∧ (lacks error ∨ broken error)) ∧
    ((∃ rank, run.outcome rank ≠ some (.ok (values rank))) →
      ∃ rank error, run.outcome rank = some (.error error) ∧ lacks error) := by
  obtain ⟨outcomes, ends, ended⟩ := run.exists_outcomes (together.inStep_of_trails trails)
  simp only [ends, ne_eq, Option.some.injEq]
  rcases ended with reached | ⟨⟨culprit, error, failed, lacking⟩, each⟩ | each
  · -- All exchanges took place, so that no rank was left by another one.
    have known : ∀ rank, outcomes rank = .ok (values rank) ∨
        ∃ error, outcomes rank = .error error ∧ lacks error := reached
    refine ⟨fun rank => (known rank).imp_right fun ⟨error, failed, lacking⟩ =>
      ⟨error, failed, .inl lacking⟩, fun ⟨rank, missing⟩ => ?_⟩
    exact ⟨rank, (known rank).resolve_left missing⟩
  · exact ⟨fun rank => .inr (each rank), fun _ => ⟨culprit, error, failed, lacking⟩⟩
  · -- Ranks never lack something together.
    have nobody : ∀ _ : Fin size, False := fun rank => (each rank).choose_spec.2
    exact ⟨fun rank => (nobody rank).elim, fun ⟨rank, _⟩ => (nobody rank).elim⟩

end Cluster

/-- Ranks that come to the same outcomes as others come to values together exactly when these do. -/
theorem Cluster.RunAlike.together_iff (alike : RunAlike programs others) :
    Together programs values ↔ Together others values := by
  -- Both come to the same outcomes under the schedule of some run.
  constructor
  · intro together
    obtain ⟨run⟩ := Run.exists_of_programs (Vector.ofFn programs)
    obtain ⟨other, -, same⟩ := (alike run.schedule run.outcome).mp ⟨run, rfl, rfl⟩
    exact other.together_iff.mp fun rank => same ▸ run.together_iff.mpr together rank
  · intro together
    obtain ⟨run⟩ := Run.exists_of_programs (Vector.ofFn others)
    obtain ⟨other, -, same⟩ := (alike run.schedule run.outcome).mpr ⟨run, rfl, rfl⟩
    exact other.together_iff.mp fun rank => same ▸ run.together_iff.mpr together rank

end Ranks

end DistGraph
