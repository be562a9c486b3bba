import DistGraph.Proofs.Cluster.InStep

/-! Ranks that do the same as others wherever they get to, and so end in the same way under every
schedule. -/

namespace DistGraph

variable [Payloads] {size : Nat} {ε α β : Type}

/-- Whether two programs are about to do the same. -/
inductive Program.Alike : Program size ε α → Program size ε α → Prop where
  /-- Both are done. -/
  | done (value : α) : Alike (.done value) (.done value)
  /-- Both have failed. -/
  | fail (error : ε) : Alike (.fail error) (.fail error)
  /-- Both send the same in the same exchange. -/
  | exchange (call : Call) (sent : Vector call.Item size) (fault : ExchangeError → ε)
      (next later : Vector call.Item size → Program size ε α) :
      Alike (.exchange call sent fault next) (.exchange call sent fault later)

/-- A program is about to do what it does. -/
theorem Program.Alike.refl (program : Program size ε α) : program.Alike program := by
  -- What comes after an exchange is not compared.
  cases program with
  | done value => exact .done value
  | fail error => exact .fail error
  | exchange call sent fault next => exact .exchange call sent fault next next

/-- Either program does the same as the other. -/
theorem Program.Alike.symm {program other : Program size ε α} (alike : program.Alike other) :
    other.Alike program := by
  -- Only what comes after an exchange is told apart.
  cases alike with
  | done value => exact .done value
  | fail error => exact .fail error
  | exchange call sent fault next later => exact .exchange call sent fault later next

/-- Programs that are about to do the same send the same messages. -/
theorem Program.Alike.parcel?_eq {program other : Program size ε α} (alike : program.Alike other)
    (seq : Nat) (receiver : Fin size) : program.parcel? seq receiver = other.parcel? seq receiver := by
  cases alike <;> rfl

/-- Programs that are not done go on with whatever follows only after they have done the same. -/
theorem Program.Alike.bind {program other : Program size ε α} (alike : program.Alike other)
    (busy : ∀ value, program ≠ .done value) (later otherLater : α → Program size ε β) :
    (program >>= later).Alike (other >>= otherLater) := by
  -- What follows is out of reach of a failure, and comes only after an exchange.
  cases alike with
  | done value => exact absurd rfl (busy value)
  | fail error => exact .fail error
  | exchange call sent fault next onwards => exact .exchange ..

/-- A program that is not done is not done when something follows it. -/
theorem Program.bind_ne_done {program : Program size ε α} (busy : ∀ value, program ≠ .done value)
    (later : α → Program size ε β) (result : β) : (program >>= later) ≠ .done result := by
  intro made
  -- Results alone are passed on.
  cases program with
  | done value => exact busy value rfl
  | fail error => cases made
  | exchange call sent fault next => cases made

/-- Two programs on every rank that lead all ranks through the same exchanges to the same results, or until
the same ranks fail while the others wait. -/
inductive Twins (reaches : (Fin size → Except ε α) → Prop) :
    (programs others : Fin size → Program size ε α) → Prop where
  /-- All ranks end. -/
  | ends {programs : Fin size → Program size ε α} (pending : Fin size → Except ε α)
      (ended : ∀ rank, programs rank = .ofExcept (pending rank)) (here : reaches pending) :
      Twins reaches programs programs
  /-- Some ranks have failed, and all others want to take part in an exchange. -/
  | halts {programs others : Fin size → Program size ε α}
      (someone : ∃ rank error, programs rank = .fail error)
      (busy : ∀ rank value, programs rank ≠ .done value)
      (alike : ∀ rank, (programs rank).Alike (others rank)) : Twins reaches programs others
  /-- All ranks take part in the same exchange, and go on alike after it. -/
  | meets {programs others : Fin size → Program size ε α} {call : Call}
      {sent : Fin size → Vector call.Item size} {fault : Fin size → ExchangeError → ε}
      {next later : Fin size → Vector call.Item size → Program size ε α}
      (stands : ∀ rank, programs rank = .exchange call (sent rank) (fault rank) (next rank))
      (other : ∀ rank, others rank = .exchange call (sent rank) (fault rank) (later rank))
      (onwards : Twins reaches (fun rank => next rank (Cluster.delivered sent rank))
        fun rank => later rank (Cluster.delivered sent rank)) :
      Twins reaches programs others

namespace Cluster

section Stages

variable {programs others : Vector (Program size ε α) size} {count : Nat}

/-- What a rank collects is told by what all ranks are about to do. -/
theorem collect_congr (alike : ∀ rank, (programs.get rank).Alike (others.get rank)) (seq : Nat)
    (call : Call) (receiver : Fin size) :
    collect seq programs call receiver = collect seq others call receiver := by
  -- Every message is the same.
  have each : receive seq programs call receiver = receive seq others call receiver := by
    funext peer
    rw [receive, receive, (alike peer).parcel?_eq]
  rw [collect, collect, each]

/-- Ranks that are about to do the same end in the same way if they do not meet. -/
theorem stage_succ_congr (apart : ∀ call sent, ¬ Meet (stage programs count) call sent)
    (alike : ∀ rank, ((stage programs count).get rank).Alike ((stage others count).get rank))
    (rank : Fin size) : ∃ ending : Except ε α, (stage programs (count + 1)).get rank = .ofExcept ending ∧
      (stage others (count + 1)).get rank = .ofExcept ending := by
  rw [stage_succ, stage_succ, advance, advance]
  have here := alike rank
  cases stands : (stage programs count).get rank with
  | done value =>
    rw [stands] at here
    cases other : (stage others count).get rank <;> rw [other] at here <;> cases here
    exact ⟨.ok value, rfl, rfl⟩
  | fail error =>
    rw [stands] at here
    cases other : (stage others count).get rank <;> rw [other] at here <;> cases here
    exact ⟨.error error, rfl, rfl⟩
  | exchange call sent fault next =>
    rw [stands] at here
    cases other : (stage others count).get rank <;> rw [other] at here <;> cases here
    -- Both collect the same, which is an error since not all ranks meet.
    simp only [← collect_congr alike count call rank]
    cases collected : collect count (stage programs count) call rank with
    | ok received =>
      obtain ⟨items, meet, -⟩ := collect_eq_ok_iff.mp collected
      exact absurd meet (apart call items)
    | error error => exact ⟨.error (fault error), rfl, rfl⟩

/-- A rank that has ended stays as it is. -/
theorem stage_ofExcept_of_le {later : Nat} {rank : Fin size} {ending : Except ε α}
    (ended : (stage programs count).get rank = .ofExcept ending) (after : count ≤ later) :
    (stage programs later).get rank = .ofExcept ending := by
  cases ending with
  | ok value => exact stage_done_of_le ended after
  | error error => exact stage_fail_of_le ended after

/-- Ranks that are about to do the same but do not meet end in the same way, and stay so. -/
theorem stage_alike_of_apart (apart : ∀ call sent, ¬ Meet (stage programs count) call sent)
    (alike : ∀ rank, ((stage programs count).get rank).Alike ((stage others count).get rank))
    {last : Nat} (after : count ≤ last) (rank : Fin size) :
    ((stage programs last).get rank).Alike ((stage others last).get rank) := by
  -- Both have ended from the next stage on.
  rcases Nat.lt_or_eq_of_le after with beyond | rfl
  · obtain ⟨ending, ended, otherEnded⟩ := stage_succ_congr apart alike rank
    rw [stage_ofExcept_of_le ended beyond, stage_ofExcept_of_le otherEnded beyond]
    exact .refl _
  · exact alike rank

end Stages

end Cluster

namespace Twins

open Cluster

variable {reaches : (Fin size → Except ε α) → Prop} {programs others : Fin size → Program size ε α}

/-- Ranks that are twins in some stage are about to do the same in every stage from there. -/
theorem stage_alike_of_le {start otherStart : Vector (Program size ε α) size}
    (twins : Twins reaches programs others) {count : Nat}
    (stands : ∀ rank : Fin size, (stage start count).get rank = programs rank)
    (otherStands : ∀ rank : Fin size, (stage otherStart count).get rank = others rank)
    {last : Nat} (after : count ≤ last) (rank : Fin size) :
    ((stage start last).get rank).Alike ((stage otherStart last).get rank) := by
  -- The induction follows the twins from one exchange to the next.
  induction twins generalizing count with
  | ends pending ended here =>
    rw [stage_ofExcept_of_le ((stands rank).trans (ended rank)) after,
      stage_ofExcept_of_le ((otherStands rank).trans (ended rank)) after]
    exact .refl _
  | halts someone busy alike =>
    refine stage_alike_of_apart (fun call sent meet => ?_) (fun rank => ?_) after rank
    · -- The rank that has failed takes part in no exchange.
      obtain ⟨culprit, error, failed⟩ := someone
      exact meet.ne_fail culprit error ((stands culprit).trans failed)
    · rw [stands, otherStands]
      exact alike rank
  | @meets programs others call sent fault next later made otherMade _ ih =>
    have meet : Meet (stage start count) call sent :=
      fun rank => ⟨_, _, (stands rank).trans (made rank)⟩
    have otherMeet : Meet (stage otherStart count) call sent :=
      fun rank => ⟨_, _, (otherStands rank).trans (otherMade rank)⟩
    -- The next stage starts with what all ranks received, which is the same for both.
    rcases Nat.lt_or_eq_of_le after with beyond | rfl
    · exact ih (fun rank => stage_succ_meet meet ((stands rank).trans (made rank)))
        (fun rank => stage_succ_meet otherMeet ((otherStands rank).trans (otherMade rank))) beyond
    · rw [stands, otherStands, made, otherMade]
      exact .exchange ..

/-- Twins are about to do the same in every stage. -/
theorem stage_alike (twins : Twins reaches programs others) (count : Nat) (rank : Fin size) :
    ((stage (Vector.ofFn programs) count).get rank).Alike ((stage (Vector.ofFn others) count).get rank) :=
  twins.stage_alike_of_le (fun rank => by simp) (fun rank => by simp) (Nat.zero_le count) rank

/-- Results may be described in a weaker way. -/
theorem mono {goal : (Fin size → Except ε α) → Prop} (twins : Twins reaches programs others)
    (weaker : ∀ pending, reaches pending → goal pending) : Twins goal programs others := by
  -- Only where all ranks end something is said of their results.
  induction twins with
  | ends pending ended here => exact .ends pending ended (weaker pending here)
  | halts someone busy alike => exact .halts someone busy alike
  | meets stands other _ ih => exact .meets stands other ih

/-- Either ranks are the twins of the others. -/
theorem symm (twins : Twins reaches programs others) : Twins reaches others programs := by
  induction twins with
  | ends pending ended here => exact .ends pending ended here
  | @halts programs others someone busy alike =>
    obtain ⟨culprit, error, failed⟩ := someone
    refine .halts ⟨culprit, error, ?_⟩ (fun rank value made => ?_) fun rank => (alike rank).symm
    · -- The same rank has failed on the other side.
      have here := alike culprit
      rw [failed] at here
      cases other : others culprit <;> rw [other] at here <;> cases here
      rfl
    · -- A rank that is done there is done here.
      have here := alike rank
      rw [made] at here
      cases stands : programs rank <;> rw [stands] at here <;> cases here
      exact busy rank _ stands
  | meets stands other _ ih => exact .meets other stands ih

/-- Twins go on alike from what they come to, those that have failed having failed. -/
theorem bind {later otherLater : Fin size → α → Program size ε β} {goal : (Fin size → Except ε β) → Prop}
    (twins : Twins reaches programs others)
    (onwards : ∀ pending, reaches pending → Twins goal
      (fun rank => Program.ofExcept (pending rank) >>= later rank)
      fun rank => Program.ofExcept (pending rank) >>= otherLater rank) :
    Twins goal (fun rank => programs rank >>= later rank) fun rank => others rank >>= otherLater rank := by
  -- Ranks that wait or have failed do not get to what follows.
  induction twins with
  | ends pending ended here =>
    simp only [ended]
    exact onwards pending here
  | @halts programs others someone busy alike =>
    obtain ⟨culprit, error, failed⟩ := someone
    exact .halts ⟨culprit, error, by rw [failed]; rfl⟩
      (fun rank value => Program.bind_ne_done (busy rank) (later rank) value)
      fun rank => (alike rank).bind (busy rank) (later rank) (otherLater rank)
  | @meets programs others call sent fault next turn stands other _ ih =>
    have here : ∀ rank, (programs rank >>= later rank) = .exchange call (sent rank) (fault rank)
        fun received => next rank received >>= later rank := fun rank => by rw [stands rank]; rfl
    have there : ∀ rank, (others rank >>= otherLater rank) = .exchange call (sent rank) (fault rank)
        fun received => turn rank received >>= otherLater rank := fun rank => by rw [other rank]; rfl
    exact .meets here there ih

end Twins

/-- Ranks that stay in step do the same as they do. -/
theorem InStep.twins {blame : Blame size ε} {reaches : (Fin size → Except ε α) → Prop}
    {programs : Fin size → Program size ε α} (inStep : InStep blame reaches programs) :
    Twins reaches programs programs := by
  induction inStep with
  | ends pending ended here => exact .ends pending ended here
  | @halts programs start fair someone fails waits =>
    obtain ⟨culprit, error, failed⟩ := someone
    refine .halts ⟨culprit, error, fails culprit error failed⟩ (fun rank value done => ?_) fun _ => .refl _
    -- Whoever has not failed waits in an exchange, so no rank is done.
    cases held : start rank with
    | error reason => exact nomatch (fails rank reason held).symm.trans done
    | ok =>
      obtain ⟨call, sent, fault, next, made, -⟩ := waits rank held
      exact nomatch made.symm.trans done
  | meets stands _ ih => exact .meets stands stands ih

/-- Ranks are judged by whether they do the same in both ways. -/
def Judgement.twins : Judgement size ε where
  holds := Twins
  ends pending here := .ends pending (fun _ => rfl) here
  mono := Twins.mono
  bind := Twins.bind

/-- Ranks of which those that have not failed know some facts do the same as others from there. -/
def Mirrors (blame : Blame size ε) (facts : Fin size → Prop) (programs others : Fin size → Program size ε α)
    (reaches : (Fin size → Except ε α) → Prop) : Prop :=
  -- Failures from before are carried along by both.
  Judgement.twins.From blame facts programs others reaches

namespace Mirrors

variable {blame : Blame size ε} {facts middle : Fin size → Prop}
  {programs others : Fin size → Program size ε α} {reaches : (Fin size → Except ε α) → Prop}

/-- Ranks that start from nothing do the same. -/
theorem twins (mirrors : Mirrors blame (fun _ => True) programs others reaches) :
    Twins reaches programs others :=
  Judgement.From.start mirrors

/-- More may be known at the start, and less in the end. -/
theorem mono {other : Fin size → Prop} {goal : (Fin size → Except ε α) → Prop}
    (mirrors : Mirrors blame facts programs others reaches) (stronger : ∀ rank, other rank → facts rank)
    (weaker : ∀ pending, reaches pending → goal pending) : Mirrors blame other programs others goal :=
  Judgement.From.mono mirrors stronger weaker

/-- Programs do the same as those that they are equal to where the facts hold. -/
theorem congr {later : Fin size → Program size ε α} (mirrors : Mirrors blame facts programs others reaches)
    (same : ∀ rank, facts rank → later rank = others rank) : Mirrors blame facts programs later reaches :=
  Judgement.From.congr mirrors (fun _ _ => rfl) same

/-- What follows goes on from the known values. -/
theorem after {known : Fin size → α} {later otherLater : Fin size → α → Program size ε β}
    {goal : (Fin size → Except ε β) → Prop}
    (first : Mirrors blame facts programs others (blame.Pending middle known))
    (second : Mirrors blame middle (fun rank => later rank (known rank))
      (fun rank => otherLater rank (known rank)) goal) :
    Mirrors blame facts (fun rank => programs rank >>= later rank)
      (fun rank => others rank >>= otherLater rank) goal :=
  Judgement.From.after first second

/-- What follows from the facts of every rank may be assumed. -/
theorem given {known : Fin size → α} {claim : Prop} (follows : ∀ rank, facts rank → claim)
    (mirrors : claim → Mirrors blame facts programs others (blame.Pending middle known)) :
    Mirrors blame facts programs others (blame.Pending middle known) :=
  Judgement.From.given follows mirrors

/-- Ranks that cannot all have got this far do the same up to their next exchange. -/
theorem unmet (missing : ¬ ∀ rank, facts rank) (busy : ∀ rank value, programs rank ≠ .done value)
    (alike : ∀ rank, (programs rank).Alike (others rank)) :
    Mirrors blame facts programs others reaches := by
  intro start pending
  obtain ⟨culprit, absent⟩ := not_forall.mp missing
  -- A rank that lacks the facts has failed before.
  have failed : ∃ error, start culprit = .error error := by
    cases held : start culprit with
    | error error => exact ⟨error, rfl⟩
    | ok value => exact absurd (pending.sound culprit value held).1 absent
  obtain ⟨error, failed⟩ := failed
  refine .halts ⟨culprit, error, by rw [failed]; rfl⟩ (fun rank value made => ?_) fun rank => ?_
  · cases held : start rank with
    | error error =>
      rw [held] at made
      cases made
    | ok =>
      rw [held] at made
      exact busy rank value made
  · cases start rank with
    | error error => exact .fail error
    | ok => exact alike rank

end Mirrors

/-- Ranks that stay in step do the same as they do. -/
theorem Leads.mirrors {blame : Blame size ε} {facts : Fin size → Prop}
    {programs : Fin size → Program size ε α} {reaches : (Fin size → Except ε α) → Prop}
    (leads : Leads blame facts programs reaches) : Mirrors blame facts programs programs reaches :=
  fun start pending => (leads start pending).twins

end DistGraph
