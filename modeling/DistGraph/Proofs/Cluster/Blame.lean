import DistGraph.Proofs.Cluster.Together
import DistGraph.Error

/-! The failures that ranks may come to, and judgements on what they do once some of them have failed. -/

namespace DistGraph

variable {size : Nat} {ε α β : Type}

/-- The failures that ranks may come to. -/
structure Blame (size : Nat) (ε : Type) where
  /-- What a rank may fail with by itself. -/
  own : Fin size → ε → Prop
  /-- What a rank may fail with where all ranks fail alike. -/
  shared : Fin size → ε → Prop
  /-- What a rank may fail with because another one does. -/
  peers : Fin size → ε → Prop

namespace Blame

variable (blame : Blame size ε)

/-- Whether the failures among what ranks have come to may stand next to each other. -/
def Fair (pending : Fin size → Except ε α) : Prop :=
  (∀ rank error, pending rank = .error error → blame.own rank error) ∨
    ∀ rank, ∃ error, pending rank = .error error ∧ blame.shared rank error

variable {blame} in
/-- Failures are carried along, and ranks may add failures of their own. -/
theorem Fair.carry {pending : Fin size → Except ε α} {later : Fin size → Except ε β}
    (fair : blame.Fair pending)
    (kept : ∀ rank error, pending rank = .error error → later rank = .error error)
    (added : ∀ rank error, later rank = .error error →
      pending rank = .error error ∨ blame.own rank error) : blame.Fair later := by
  -- Where all ranks have failed alike no rank is left to add a failure.
  rcases fair with owns | shares
  · refine .inl fun rank error failing => ?_
    rcases added rank error failing with before | own
    · exact owns rank error before
    · exact own
  · refine .inr fun rank => ?_
    obtain ⟨error, failing, shared⟩ := shares rank
    exact ⟨error, kept rank error failing, shared⟩

/-- How all ranks end once some of them have failed. -/
inductive Stops (outcomes : Fin size → Except ε α) : Prop where
  /-- Some ranks fail by themselves, and the others because of them. -/
  | apart (someone : ∃ rank error, outcomes rank = .error error ∧ blame.own rank error)
      (each : ∀ rank, ∃ error, outcomes rank = .error error ∧
        (blame.own rank error ∨ blame.peers rank error))
  /-- All ranks fail alike. -/
  | together (each : ∀ rank, ∃ error, outcomes rank = .error error ∧ blame.shared rank error)

variable {blame} in
/-- Once some ranks have failed as they may, all are stopped if the others fail because of them. -/
theorem Fair.stops {start : Fin size → Except ε Unit} {outcomes : Fin size → Except ε α}
    (fair : blame.Fair start) (someone : ∃ rank error, start rank = .error error)
    (failed : ∀ rank error, start rank = .error error → outcomes rank = .error error)
    (waited : ∀ rank, start rank = .ok () →
      ∃ error, outcomes rank = .error error ∧ blame.peers rank error) : blame.Stops outcomes := by
  -- A rank that had failed keeps its failure, and the others have waited.
  rcases fair with owns | shares
  · obtain ⟨culprit, reason, failing⟩ := someone
    refine .apart ⟨culprit, reason, failed _ _ failing, owns _ _ failing⟩ fun rank => ?_
    cases held : start rank with
    | error error => exact ⟨error, failed rank error held, .inl (owns rank error held)⟩
    | ok =>
      obtain ⟨error, same, told⟩ := waited rank held
      exact ⟨error, same, .inr told⟩
  · refine .together fun rank => ?_
    obtain ⟨error, failing, shared⟩ := shares rank
    exact ⟨error, failed rank error failing, shared⟩

/-- What is known of ranks that have got this far: those that have not failed hold known values. -/
structure Pending (facts : Fin size → Prop) (known : Fin size → α) (pending : Fin size → Except ε α) :
    Prop where
  /-- A rank that has not failed has the known value, and the facts hold for it. -/
  sound : ∀ rank value, pending rank = .ok value → facts rank ∧ value = known rank
  /-- The others have failed as they may. -/
  fair : blame.Fair pending

variable {blame} in
/-- Less may be known. -/
theorem Pending.mono {facts others : Fin size → Prop} {known : Fin size → α}
    {pending : Fin size → Except ε α} (held : blame.Pending facts known pending)
    (weaker : ∀ rank, facts rank → others rank) : blame.Pending others known pending := by
  refine ⟨fun rank value made => ?_, held.fair⟩
  obtain ⟨fact, same⟩ := held.sound rank value made
  exact ⟨weaker rank fact, same⟩

variable {blame} in
/-- Ranks that have not failed may go on from what they know. -/
theorem Pending.restart {facts : Fin size → Prop} {known : Fin size → α} {pending : Fin size → Except ε α}
    (held : blame.Pending facts known pending) :
    blame.Pending facts (fun _ => ()) fun rank => (pending rank).map fun _ => () := by
  -- Only the values are dropped, which are known anyway.
  constructor
  · intro rank value found
    cases made : pending rank with
    | error error => simp [made] at found
    | ok result => exact ⟨(held.sound rank result made).1, rfl⟩
  · refine held.fair.carry (fun rank error failing => ?_) fun rank error failing => .inl ?_
    · simp [failing]
    · cases made : pending rank with
      | error earlier => simpa [made] using failing
      | ok result => simp [made] at failing

end Blame

variable [Payloads]

/-- What follows on known values is told by these. -/
theorem Blame.Pending.resumed {blame : Blame size ε} {facts : Fin size → Prop} {known : Fin size → α}
    {pending : Fin size → Except ε α} (held : blame.Pending facts known pending)
    (later : Fin size → α → Program size ε β) :
    (fun rank => Program.ofExcept (pending rank) >>= later rank) = fun rank =>
      Program.ofExcept ((pending rank).map fun _ => ()) >>= fun _ => later rank (known rank) := by
  funext rank
  -- A rank that has failed gets to neither, and the others hold the known value.
  cases found : pending rank with
  | error error => rfl
  | ok value =>
    rw [(held.sound rank value found).2]
    rfl

/-- A judgement on what ranks do in one way and in another, up to what they come to. -/
structure Judgement (size : Nat) (ε : Type) where
  /-- Whether it holds of the two ways. -/
  holds : {α : Type} → (reaches : (Fin size → Except ε α) → Prop) →
    (programs others : Fin size → Program size ε α) → Prop
  /-- It holds where all ranks have ended in the same way. -/
  ends : ∀ {α : Type} {reaches : (Fin size → Except ε α) → Prop} (pending : Fin size → Except ε α),
    reaches pending →
      holds reaches (fun rank => .ofExcept (pending rank)) fun rank => .ofExcept (pending rank)
  /-- What the ranks come to may be described in a weaker way. -/
  mono : ∀ {α : Type} {reaches goal : (Fin size → Except ε α) → Prop}
    {programs others : Fin size → Program size ε α}, holds reaches programs others →
      (∀ pending, reaches pending → goal pending) → holds goal programs others
  /-- It carries over to what follows, where ranks that have failed have failed. -/
  bind : ∀ {α β : Type} {reaches : (Fin size → Except ε α) → Prop}
    {goal : (Fin size → Except ε β) → Prop} {programs others : Fin size → Program size ε α}
    {later otherLater : Fin size → α → Program size ε β}, holds reaches programs others →
      (∀ pending, reaches pending → holds goal
        (fun rank => Program.ofExcept (pending rank) >>= later rank)
        fun rank => Program.ofExcept (pending rank) >>= otherLater rank) →
      holds goal (fun rank => programs rank >>= later rank) fun rank => others rank >>= otherLater rank

/-- Whether a judgement holds of ranks of which those that have not failed know some facts. -/
def Judgement.From (judgement : Judgement size ε) (blame : Blame size ε) (facts : Fin size → Prop)
    (programs others : Fin size → Program size ε α) (reaches : (Fin size → Except ε α) → Prop) : Prop :=
  -- Failures from before are carried along.
  ∀ start : Fin size → Except ε Unit, blame.Pending facts (fun _ => ()) start →
    judgement.holds reaches (fun rank => Program.ofExcept (start rank) >>= fun _ => programs rank)
      fun rank => Program.ofExcept (start rank) >>= fun _ => others rank

namespace Judgement.From

variable {judgement : Judgement size ε} {blame : Blame size ε} {facts middle : Fin size → Prop}
  {programs others : Fin size → Program size ε α} {reaches : (Fin size → Except ε α) → Prop}

/-- Before anything has happened no rank has failed. -/
theorem start (judged : judgement.From blame (fun _ => True) programs others reaches) :
    judgement.holds reaches programs others :=
  judged (fun _ => .ok ()) ⟨fun _ _ _ => ⟨trivial, rfl⟩, .inl fun _ _ failing => nomatch failing⟩

/-- More may be known at the start, and less in the end. -/
theorem mono {known : Fin size → Prop} {goal : (Fin size → Except ε α) → Prop}
    (judged : judgement.From blame facts programs others reaches) (stronger : ∀ rank, known rank → facts rank)
    (weaker : ∀ pending, reaches pending → goal pending) :
    judgement.From blame known programs others goal :=
  fun start pending => judgement.mono (judged start (pending.mono stronger)) weaker

/-- Programs are the same to all ranks that get to them if they are where the facts hold. -/
theorem resumed_congr {start : Fin size → Except ε Unit} {later : Fin size → Program size ε α}
    (pending : blame.Pending facts (fun _ => ()) start)
    (same : ∀ rank, facts rank → later rank = programs rank) :
    (fun rank => Program.ofExcept (start rank) >>= fun _ => later rank) =
      fun rank => Program.ofExcept (start rank) >>= fun _ => programs rank := by
  funext rank
  -- A rank that has failed gets to neither program.
  cases held : start rank with
  | error error => rfl
  | ok value => rw [same rank (pending.sound rank value held).1]

/-- Programs may be replaced by others that are equal where the facts hold. -/
theorem congr {later otherLater : Fin size → Program size ε α}
    (judged : judgement.From blame facts programs others reaches)
    (same : ∀ rank, facts rank → later rank = programs rank)
    (otherSame : ∀ rank, facts rank → otherLater rank = others rank) :
    judgement.From blame facts later otherLater reaches := by
  intro start pending
  rw [resumed_congr pending same, resumed_congr pending otherSame]
  exact judged start pending

/-- What follows goes on from the known values. -/
theorem after {known : Fin size → α} {later otherLater : Fin size → α → Program size ε β}
    {goal : (Fin size → Except ε β) → Prop}
    (first : judgement.From blame facts programs others (blame.Pending middle known))
    (second : judgement.From blame middle (fun rank => later rank (known rank))
      (fun rank => otherLater rank (known rank)) goal) :
    judgement.From blame facts (fun rank => programs rank >>= later rank)
      (fun rank => others rank >>= otherLater rank) goal := by
  intro start pending
  -- Whoever failed on the way carries the failure into what follows.
  simp only [← bind_assoc]
  refine judgement.bind (first start pending) fun between held => ?_
  rw [held.resumed later, held.resumed otherLater]
  exact second _ held.restart

/-- What follows from the facts of every rank may be assumed, since otherwise all ranks have failed. -/
theorem given {known : Fin size → α} {claim : Prop} (follows : ∀ rank, facts rank → claim)
    (judged : claim → judgement.From blame facts programs others (blame.Pending middle known)) :
    judgement.From blame facts programs others (blame.Pending middle known) := by
  -- With the claim there is nothing to add.
  by_cases holds : claim
  · exact judged holds
  · intro start pending
    -- No rank has the facts, so that all have failed before.
    have failed : ∀ rank, ∃ error, start rank = .error error := by
      intro rank
      cases held : start rank with
      | error error => exact ⟨error, rfl⟩
      | ok => exact absurd (follows rank (pending.sound rank () held).1) holds
    choose error failing using failed
    have lost : ∀ programs : Fin size → Program size ε α,
        (fun rank => Program.ofExcept (start rank) >>= fun _ => programs rank) =
          fun rank => Program.ofExcept (.error (error rank)) := by
      intro programs
      funext rank
      rw [failing rank]
      rfl
    rw [lost programs, lost others]
    refine judgement.ends _ ⟨?_, ?_⟩
    · exact fun rank value made => nomatch made
    refine pending.fair.carry (fun rank other same => ?_) fun rank other same => .inl ?_
    · rw [failing rank, Except.error.injEq] at same
      rw [same]
    · rw [Except.error.injEq] at same
      rw [failing rank, same]

end Judgement.From

end DistGraph
