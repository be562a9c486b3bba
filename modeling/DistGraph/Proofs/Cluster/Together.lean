import DistGraph.Proofs.Cluster.History

/-! Work in which all ranks succeed, told as one computation of all ranks together. -/

namespace DistGraph

variable [Payloads] {size : Nat} {ε ζ α β γ : Type}

/-- The ranks go through the same exchanges, and every rank comes to its value. -/
inductive Together : (programs : Fin size → Program size ε α) → (values : Fin size → α) → Prop where
  /-- All ranks are done. -/
  | done {programs : Fin size → Program size ε α} {values : Fin size → α}
      (ended : ∀ rank, programs rank = .done (values rank)) : Together programs values
  /-- All ranks take part in the same exchange, and go on together with what it delivers. -/
  | exchange {programs : Fin size → Program size ε α} {values : Fin size → α} {call : Call}
      {sent : Fin size → Vector call.Item size} {fault : Fin size → ExchangeError → ε}
      {next : Fin size → Vector call.Item size → Program size ε α}
      (stands : ∀ rank, programs rank = .exchange call (sent rank) (fault rank) (next rank))
      (later : Together (fun rank => next rank (Cluster.delivered sent rank)) values) :
      Together programs values

namespace Program

/-- Failures are told in another way before or after sequencing alike. -/
theorem mapError_bind (tell : ε → ζ) (program : Program size ε α) (later : α → Program size ε β) :
    (program.bind later).mapError tell =
      (program.mapError tell).bind fun value => (later value).mapError tell := by
  -- Sequencing touches the results only, and telling the failures does not.
  induction program with
  | done value => rfl
  | fail error => rfl
  | exchange call sent fault next ih => simp only [bind, mapError, ih]

/-- Failures that are told in another way twice are told in the combined way. -/
theorem mapError_mapError {η : Type} (tell : ε → ζ) (again : ζ → η) (program : Program size ε α) :
    (program.mapError tell).mapError again = program.mapError fun error => again (tell error) := by
  -- Every failure in the tree is told twice.
  induction program with
  | done value => rfl
  | fail error => rfl
  | exchange call sent fault next ih => simp only [mapError, ih]

end Program

namespace Together

/-- How failures are told does not matter where all ranks succeed. -/
theorem mapError_iff (tell : ε → ζ) (programs : Fin size → Program size ε α)
    {values : Fin size → α} :
    Together (fun rank => (programs rank).mapError tell) values ↔ Together programs values := by
  constructor
  · intro together
    -- The induction is on programs that are known only behind the translation of their errors.
    generalize told : (fun rank => (programs rank).mapError tell) = others at together
    induction together generalizing programs with
    | @done others values ended =>
      refine .done fun rank => ?_
      have same := (congrFun told rank).trans (ended rank)
      cases found : programs rank with
      | done value => simpa [found] using same
      | fail error => simp [found] at same
      | exchange call sent fault next => simp [found] at same
    | @exchange others values call sent fault next stands later ih =>
      -- The translation leaves calls and items as they are.
      have each : ∀ rank, ∃ inner onwards, programs rank = .exchange call (sent rank) inner onwards ∧
          next rank = fun received => (onwards received).mapError tell := by
        intro rank
        have same := (congrFun told rank).trans (stands rank)
        cases found : programs rank with
        | done value => simp [found] at same
        | fail error => simp [found] at same
        | exchange made items inner onwards =>
          simp only [found, Program.mapError_exchange, Program.exchange.injEq] at same
          obtain ⟨rfl, sameItems, -, sameNext⟩ := same
          rw [eq_of_heq sameItems]
          exact ⟨inner, onwards, rfl, (eq_of_heq sameNext).symm⟩
      choose inner onwards made same using each
      exact .exchange made (ih _ (funext fun rank => by rw [same]))
  · intro together
    induction together with
    | done ended => exact .done fun rank => by simp [ended rank]
    | @exchange programs values call sent fault next stands later ih =>
      have told : ∀ rank, (programs rank).mapError tell = .exchange call (sent rank)
          (fun error => tell (fault rank error)) fun received => (next rank received).mapError tell :=
        fun rank => by simp [stands rank]
      exact .exchange told ih

/-- Ranks that come to values together can go on together from there. -/
theorem bind {programs : Fin size → Program size ε α} {values : Fin size → α}
    {later : Fin size → α → Program size ε β} {results : Fin size → β}
    (first : Together programs values)
    (second : Together (fun rank => later rank (values rank)) results) :
    Together (fun rank => (programs rank).bind (later rank)) results := by
  -- The later work starts for all ranks at the same leaf of the trees.
  induction first with
  | @done programs values ended =>
    have same : (fun rank => (programs rank).bind (later rank)) =
        fun rank => later rank (values rank) :=
      funext fun rank => by rw [ended rank, Program.bind]
    rw [same]
    exact second
  | @exchange programs values call sent fault next stands _ ih =>
    have onwards : ∀ rank, (programs rank).bind (later rank) = .exchange call (sent rank)
        (fault rank) fun received => (next rank received).bind (later rank) :=
      fun rank => by rw [stands rank, Program.bind]
    exact .exchange onwards (ih second)

end Together

/-- What ranks compute together, whatever they do afterwards: they can only go on from results that
meet the description, and from all of those they do. -/
def Computes (programs : Fin size → Program size ε α) (describes : (Fin size → α) → Prop) : Prop :=
  -- Quantifying over the work that follows makes descriptions compose.
  ∀ (β : Type) (later : Fin size → α → Program size ε β) (values : Fin size → β),
    Together (fun rank => programs rank >>= later rank) values ↔
      ∃ results, describes results ∧ Together (fun rank => later rank (results rank)) values

namespace Computes

/-- Ranks come to results together exactly when these meet the description. -/
theorem together_iff {programs : Fin size → Program size ε α} {describes : (Fin size → α) → Prop}
    (computes : Computes programs describes) {values : Fin size → α} :
    Together programs values ↔ describes values := by
  have ends := computes α (fun _ => pure) values
  simp only [bind_pure] at ends
  rw [ends]
  constructor
  · intro ⟨results, described, together⟩
    -- Programs that are done have come to one result each.
    have same : values = results := by
      funext rank
      cases together with
      | done ended => exact (Program.done.inj (ended rank)).symm
      | exchange stands => cases stands rank
    exact same ▸ described
  · intro described
    exact ⟨values, described, .done fun _ => rfl⟩

/-- Ranks that come to values together go on from these and from no others. -/
theorem of_together {programs : Fin size → Program size ε α} {values : Fin size → α}
    (together : Together programs values) : Computes programs (· = values) := by
  intro β onwards results
  simp only [exists_eq_left]
  -- By induction on the exchanges that the ranks complete together.
  induction together with
  | @done programs values ended =>
    have same : (fun rank => programs rank >>= onwards rank) = fun rank => onwards rank (values rank) :=
      funext fun rank => by rw [ended rank]; rfl
    rw [same]
  | @exchange programs values call sent fault next stands later ih =>
    have begins : ∀ rank, programs rank >>= onwards rank = .exchange call (sent rank) (fault rank)
        fun received => next rank received >>= onwards rank := fun rank => by rw [stands rank]; rfl
    constructor
    · intro both
      cases both with
      | done ended =>
        -- Only without ranks is there nothing to exchange.
        exact .done fun rank => by cases (begins rank).symm.trans (ended rank)
      | @exchange _ _ made items fault' next' stands' later' =>
        rcases Nat.eq_zero_or_pos size with none_there | some_there
        · subst none_there
          exact .done fun rank => rank.elim0
        · have same := fun rank => (begins rank).symm.trans (stands' rank)
          simp only [Program.exchange.injEq] at same
          obtain ⟨rfl, _⟩ := same ⟨0, some_there⟩
          -- The programs stand for one exchange, so that its items and what comes after them are the
          -- same.
          have itemsEq : sent = items := funext fun rank => eq_of_heq (same rank).2.1
          have nextEq : (fun rank received => next rank received >>= onwards rank) = next' :=
            funext fun rank => eq_of_heq (same rank).2.2.2
          subst itemsEq nextEq
          exact ih.mp later'
    · exact fun onwards => .exchange begins (ih.mpr onwards)

/-- Descriptions may be put in another way. -/
theorem congr {programs : Fin size → Program size ε α} {describes other : (Fin size → α) → Prop}
    (computes : Computes programs describes) (same : ∀ results, describes results ↔ other results) :
    Computes programs other := by
  intro β later values
  rw [computes β later values]
  simp only [same]

/-- What follows on a computation is described with its results at hand. -/
theorem bind {programs : Fin size → Program size ε α} {later : Fin size → α → Program size ε β}
    {describes : (Fin size → α) → Prop} (onwards : (Fin size → α) → (Fin size → β) → Prop)
    (first : Computes programs describes)
    (second : ∀ results, describes results →
      Computes (fun rank => later rank (results rank)) (onwards results)) :
    Computes (fun rank => programs rank >>= later rank)
      fun values => ∃ results, describes results ∧ onwards results values := by
  intro γ last values
  simp only [bind_assoc]
  -- What comes last may be anything, so it may start with the later work.
  rw [first γ (fun rank value => later rank value >>= last rank) values]
  constructor
  · intro ⟨results, described, together⟩
    obtain ⟨mids, follows, together⟩ := (second results described γ last values).mp together
    exact ⟨mids, ⟨results, described, follows⟩, together⟩
  · intro ⟨mids, ⟨results, described, follows⟩, together⟩
    exact ⟨results, described, (second results described γ last values).mpr ⟨mids, follows, together⟩⟩

/-- What follows on a computation whose results are known goes on from them. -/
theorem after {programs : Fin size → Program size ε α} {later : Fin size → α → Program size ε β}
    {known : Fin size → α} {onwards : (Fin size → β) → Prop} (first : Computes programs (· = known))
    (second : Computes (fun rank => later rank (known rank)) onwards) :
    Computes (fun rank => programs rank >>= later rank) onwards := by
  refine (bind (fun _ => onwards) first ?_).congr fun values => by simp
  rintro _ rfl
  exact second

/-- What follows on a computation whose results are known, if it has any, goes on from them. -/
theorem afterIf {programs : Fin size → Program size ε α} {later : Fin size → α → Program size ε β}
    {condition : Prop} {known : Fin size → α} (onwards : (Fin size → β) → Prop)
    (first : Computes programs fun results => condition ∧ results = known)
    (second : condition → Computes (fun rank => later rank (known rank)) onwards) :
    Computes (fun rank => programs rank >>= later rank) fun values => condition ∧ onwards values := by
  -- The results are known, so they need not be carried along.
  refine (bind (fun _ => onwards) first ?_).congr fun values => ?_
  · rintro _ ⟨holds, rfl⟩
    exact second holds
  · constructor
    · intro ⟨_, ⟨holds, _⟩, described⟩
      exact ⟨holds, described⟩
    · intro ⟨holds, described⟩
      exact ⟨known, ⟨holds, rfl⟩, described⟩

/-- What follows on a computation whose results are one of many goes on from the one that it is. -/
theorem afterSome {ι : Type} {programs : Fin size → Program size ε α}
    {later : Fin size → α → Program size ε β} {condition : ι → Prop} {known : ι → Fin size → α}
    (onwards : ι → (Fin size → β) → Prop)
    (first : Computes programs fun results => ∃ which, condition which ∧ results = known which)
    (second : ∀ which, condition which →
      Computes (fun rank => later rank (known which rank)) (onwards which)) :
    Computes (fun rank => programs rank >>= later rank)
      fun values => ∃ which, condition which ∧ onwards which values := by
  intro γ last values
  simp only [bind_assoc]
  -- Whichever the results are, the later work goes on from those.
  rw [first γ (fun rank value => later rank value >>= last rank) values]
  constructor
  · intro ⟨_, ⟨which, holds, same⟩, together⟩
    subst same
    obtain ⟨mids, follows, together⟩ := (second which holds γ last values).mp together
    exact ⟨mids, ⟨which, holds, follows⟩, together⟩
  · intro ⟨mids, ⟨which, holds, follows⟩, together⟩
    exact ⟨known which, ⟨which, holds, rfl⟩,
      (second which holds γ last values).mpr ⟨mids, follows, together⟩⟩

/-- A rank that ends at once goes on with its value. -/
theorem pure (results : Fin size → α) :
    Computes (fun rank => (Pure.pure (results rank) : Program size ε α)) (· = results) :=
  of_together (.done fun _ => rfl)

/-- Ranks go on from what they compute by themselves if none of them fails. -/
theorem ofExcept (computed : Fin size → Except ε α) :
    Computes (fun rank => Program.ofExcept (computed rank))
      fun results => ∀ rank, computed rank = .ok (results rank) := by
  intro β later values
  -- Once all results are known, what is left to run is what comes after them.
  have resumed : ∀ results : Fin size → _, (∀ rank, computed rank = .ok (results rank)) →
      (fun rank => Program.ofExcept (computed rank) >>= later rank) =
        fun rank => later rank (results rank) := by
    intro results known
    funext rank
    rw [known rank]
    rfl
  constructor
  · intro together
    -- A rank that fails by itself is in the way of all others.
    have succeeds : ∀ rank, ∃ value, computed rank = .ok value := by
      intro rank
      cases found : computed rank with
      | ok value => exact ⟨value, rfl⟩
      | error error =>
        have fails : (Program.ofExcept (computed rank) >>= later rank) = .fail error := by
          rw [found]; rfl
        cases together with
        | done ended => cases (ended rank).symm.trans fails
        | exchange stands => cases (stands rank).symm.trans fails
    choose results known using succeeds
    exact ⟨results, known, resumed results known ▸ together⟩
  · intro ⟨results, known, together⟩
    exact resumed results known ▸ together

/-- Ranks go on from checks that they make by themselves if all of these pass. -/
theorem require (checked : Fin size → Except ε Unit) :
    Computes (fun rank => Program.ofExcept (checked rank)) fun results =>
      (∀ rank, checked rank = .ok ()) ∧ results = fun _ => () :=
  (ofExcept checked).congr fun _ => ⟨fun passed => ⟨passed, rfl⟩, And.left⟩

/-- In an exchange every rank goes on with what all ranks put at its position. -/
theorem issue (call : Call) (sent : Fin size → Vector call.Item size) :
    Computes (fun rank => Program.issue call (sent rank)) (· = Cluster.delivered sent) :=
  of_together (.exchange (fun _ => rfl) (.done fun _ => rfl))

/-- How failures are told does not matter for what ranks compute together. -/
theorem mapError {tell : ε → ε} {programs : Fin size → Program size ε α}
    {describes : (Fin size → α) → Prop} (computes : Computes programs describes) :
    Computes (fun rank => (programs rank).mapError tell) describes := by
  intro β later values
  rw [← computes β later values]
  -- Both sides are the same once all failures are told as nothing.
  rw [← Together.mapError_iff (fun _ => ()) fun rank => programs rank >>= later rank,
    ← Together.mapError_iff fun _ => ()]
  simp only [Program.bind_eq, Program.mapError_bind, Program.mapError_mapError]

end Computes

namespace Cluster

variable {programs : Vector (Program size ε α) size} {values : Fin size → α}

/-- All ranks complete the same number of exchanges. -/
theorem Run.completed_level (run : Run programs) (rank other : Fin size) :
    run.last.completed rank = run.last.completed other := by
  obtain ⟨_, _, kept⟩ := run.consistent
  -- What a rank completes is told by the stages in which all ranks meet.
  have below : ∀ count, count < run.last.completed rank ↔ count < run.last.completed other :=
    fun count => (kept.completed_of_finished run.finished rank count).trans
      (kept.completed_of_finished run.finished other count).symm
  have upper := below (run.last.completed rank)
  have lower := below (run.last.completed other)
  omega

/-- Ranks that met in all stages before they were done came to their values together. -/
theorem together_of_stages {count : Nat}
    (met : MetUpTo programs count)
    (done : ∀ rank : Fin size, (stage programs count).get rank = .done (values rank)) :
    Together (fun rank : Fin size => programs.get rank) values := by
  -- The induction goes back from the last stage to the first.
  have back : ∀ before, before ≤ count →
      Together (fun rank : Fin size => (stage programs (count - before)).get rank) values := by
    intro before
    induction before with
    | zero => exact fun _ => .done done
    | succ before ih =>
      intro within
      obtain ⟨call, sent, meet⟩ := met (count - (before + 1)) (by omega)
      choose fault next stands using meet
      refine .exchange stands ?_
      have onwards := ih (by omega)
      rw [show count - before = count - (before + 1) + 1 by omega] at onwards
      simpa only [fun rank => stage_succ_meet (fun rank => ⟨_, _, stands rank⟩) (stands rank)]
        using onwards
  simpa using back count (Nat.le_refl count)

/-- Ranks that go on together stand at the same exchange in every stage, until they are done. -/
theorem exists_stage_done {reached : Fin size → Program size ε α} (together : Together reached values)
    (count : Nat) (stands : ∀ rank : Fin size, (stage programs count).get rank = reached rank) :
    ∃ later, ∀ rank : Fin size, (stage programs later).get rank = .done (values rank) := by
  induction together generalizing count with
  | done ended => exact ⟨count, fun rank => by rw [stands, ended]⟩
  | exchange meets _ ih =>
    -- Where all stand at the same exchange they meet there, and the next stage follows.
    refine ih (count + 1) fun rank => ?_
    exact stage_succ_meet (fun rank => ⟨_, _, (stands rank).trans (meets rank)⟩)
      ((stands rank).trans (meets rank))

/-- All ranks end well in a run exactly when they come to their values together. -/
theorem Run.together_iff {programs : Fin size → Program size ε α}
    (run : Run (Vector.ofFn programs)) :
    (∀ rank, run.outcome rank = some (.ok (values rank))) ↔ Together programs values := by
  constructor
  · intro ends
    rcases Nat.eq_zero_or_pos size with none_there | some_there
    · subst none_there
      exact .done fun rank => rank.elim0
    obtain ⟨_, _, kept⟩ := run.consistent
    -- All ranks end in the stage that all of them have reached.
    have done : ∀ rank : Fin size, (stage (Vector.ofFn programs)
        (run.last.completed ⟨0, some_there⟩)).get rank = .done (values rank) := by
      intro rank
      obtain ⟨outcome, known, why⟩ := kept.ended_of_finished run.finished rank
      have ended := ends rank
      rw [Run.outcome, known, Option.some.injEq] at ended
      subst ended
      rw [run.completed_level rank ⟨0, some_there⟩] at why
      cases why with
      | done stands => exact stands
    simpa using together_of_stages (kept.met ⟨0, some_there⟩) done
  · -- For the other direction the stages follow the exchanges one by one.
    intro together rank
    have starts : ∀ rank : Fin size, (stage (Vector.ofFn programs) 0).get rank = programs rank :=
      fun rank => by simp
    obtain ⟨count, done⟩ := exists_stage_done together 0 starts
    exact run.outcome_ok_iff.mpr ⟨count, done rank⟩

end Cluster

end DistGraph
