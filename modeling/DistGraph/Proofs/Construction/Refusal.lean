import DistGraph.Proofs.Construction.Frame
import DistGraph.Proofs.Routing.InStep

/-! Ranks stay in step while they check what they are given, and stop together at what any rejects. -/

namespace DistGraph.Construction

variable {size : Nat} {members : Fin size → Member size} {premises : Premises members}
  {facts : Fin size → Prop}

/-- Ranks may settle on their verdicts. -/
theorem settle_leads {verdicts : Fin size → Verdict}
    (refused : (∀ rank, facts rank) → ∀ rank fault,
      settled (verdicts rank) (marks verdicts) = .error (.rejected fault) →
        premises.refuses rank fault) :
    Leads premises.blame facts (fun rank => settle (verdicts rank))
      (premises.blame.Pending (fun _ => (∀ rank, facts rank) ∧ ∀ rank, verdicts rank = .ok ())
        fun _ => ()) := by
  have stands : ∀ rank, (settle (verdicts rank) : Program size Failure Unit) =
      .exchange (.gather Wire.byte) (Vector.replicate size (mark (verdicts rank)))
        (fun error => Failure.ofGraph (.comm error))
        fun received => .ofExcept (settled (verdicts rank) received.toList) := by
    intro rank
    rw [settle_eq]
    rfl
  simp only [stands]
  refine Leads.exchange_ofExcept (fun _ _ error => ⟨error, rfl⟩) fun all => ?_
  -- All ranks read the same marks, one of every rank.
  have told : ∀ rank, ((Cluster.delivered (fun rank : Fin size => (Vector.replicate size
      (mark (verdicts rank)) : Vector (Call.gather Wire.byte).Item size)) rank).toList : List UInt8) =
        marks verdicts := by
    intro rank
    rw [Communicator.delivered_replicate]
    exact Vector.toList_ofFn
  simp only [told]
  -- With all verdicts in favour every rank goes on.
  by_cases accepted : ∀ rank, verdicts rank = .ok ()
  · simp only [settled_eq_ok accepted]
    exact ⟨fun _ _ _ => ⟨⟨all, accepted⟩, rfl⟩, .inl fun _ _ failing => nomatch failing⟩
  · -- Once a verdict refuses, no rank goes on, and all of them are to blame alike.
    obtain ⟨culprit, rejected⟩ := not_forall.mp accepted
    refine ⟨fun rank value made => ?_, .inr fun rank => ?_⟩
    · obtain ⟨fault, failing⟩ := exists_settled_eq_error rejected rank
      rw [failing] at made
      cases made
    · obtain ⟨fault, failing⟩ := exists_settled_eq_error rejected rank
      exact ⟨_, failing, fault, rfl, refused all rank fault failing⟩

/-- Ranks that were given the same options may compare them. -/
theorem compareOptions_leads (options : Options) :
    Leads premises.blame facts (fun _ => compareOptions options)
      (premises.blame.Pending (fun _ => ∀ rank, facts rank) fun _ => ()) := by
  refine (Communicator.allGather_leads Wire.word fun _ => options.fingerprint).after ?_
  simp only [allEqual_ofFn, if_true]
  exact Leads.pure _

section Lists

variable (members) (edges : Fin size → List Edge) (vertices : Fin size → List VertexId)

/-- What the ranks make of their lists of vertices. -/
def listVerdicts (rank : Fin size) : Verdict :=
  -- Without a list there is nothing to find fault with.
  if everything vertices = [] then .ok () else
    checkListed ((members rank).sorter.vertices
        (Grouping.bound (Numbering.assigner size) (everything vertices) rank))
      (Grouping.bound (Numbering.assigner size) (everything (asked members edges)) rank)

/-- Whether ranks can count the ids that they compare. -/
structure Compares : Prop where
  /-- All listed vertices can be sent to where they are at home. -/
  vertices : Routing.Countable (Numbering.assigner size) vertices
  /-- All endpoints can be as well. -/
  endpoints : Routing.Countable (Numbering.assigner size) (asked members edges)

variable {members edges vertices}

/-- Ranks may compare their lists of vertices. -/
theorem checkList_leads
    (counted : premises.countable → everything vertices ≠ [] → Compares members edges vertices) :
    Leads premises.blame facts (fun rank => checkList (members rank) (edges rank) (vertices rank))
      (premises.blame.Pending (fun _ => ∀ rank, facts rank) (listVerdicts members edges vertices)) := by
  refine (Communicator.allReduce_max_leads _).after ?_
  simp only [greatest_eq_zero_iff]
  -- Lists are compared only if there are any.
  by_cases none_there : everything vertices = []
  · have accepted : listVerdicts members edges vertices = fun _ => .ok () :=
      funext fun rank => if_pos none_there
    rw [accepted]
    simp only [none_there, if_true]
    exact Leads.pure _
  · simp only [none_there, if_false]
    -- Vertices and endpoints travel in the same way, one exchange after the other.
    have sent : ∀ {ids : Fin size → List VertexId},
        (premises.countable → Routing.Countable (Numbering.assigner size) ids) →
        Leads premises.blame (fun _ => ∀ rank, facts rank)
          (fun rank => Routing.send (members rank) Wire.vertex (Numbering.assigner size) (ids rank))
          (premises.blame.Pending (fun _ => ∀ rank, facts rank) fun rank =>
            .ofGroups fun peer : Fin size =>
              Grouping.bound (Numbering.assigner size) (ids peer) rank) := by
      intro ids counted
      have leads : Leads premises.blame (fun _ => ∀ rank, facts rank)
          (fun rank => Routing.send (members rank) Wire.vertex (Numbering.assigner size) (ids rank)) _ :=
        Routing.send_leads_of_countable (fun rank _ id _ => exists_home rank id) counted
      exact leads.mono (fun _ all => all) fun _ held => held.mono fun rank all => all rank
    refine (sent fun countable => (counted countable none_there).vertices).after
      ((sent fun countable => (counted countable none_there).endpoints).after ?_)
    simp only [Grouped.items_ofGroups, Routing.everything_bound]
    have verdicts : listVerdicts members edges vertices = fun rank =>
        checkListed ((members rank).sorter.vertices
            (Grouping.bound (Numbering.assigner size) (everything vertices) rank))
          (Grouping.bound (Numbering.assigner size) (everything (asked members edges)) rank) :=
      funext fun rank => if_neg none_there
    rw [verdicts]
    exact Leads.pure _

end Lists

/-- What is known of a rank that has not been stopped by a check. -/
structure Passed (edges : Fin size → List Edge) (vertices : Fin size → List VertexId) (options : Options)
    (rank : Fin size) : Prop where
  /-- The rank accepts what it is given itself. -/
  own : checkOwn (edges rank) (vertices rank) options = .ok ()
  /-- All ranks accept what they are given, if they check it together. -/
  together : options.check = true → Accepted edges vertices options

section Checks

variable (members) (edges : Fin size → List Edge) (vertices : Fin size → List VertexId) (options : Options)

/-- The verdicts of the ranks on what they are given themselves. -/
def ownVerdicts (rank : Fin size) : Verdict :=
  checkOwn (edges rank) (vertices rank) options

/-- Whether a rank tells a fault when all ranks refuse what they are given. -/
def Refuses (rank : Fin size) (fault : InputFault) : Prop :=
  -- Lists are compared only if every rank accepts what it is given itself.
  settled (ownVerdicts edges vertices options rank) (marks (ownVerdicts edges vertices options)) =
      .error (.rejected fault) ∨
    (∀ rank, ownVerdicts edges vertices options rank = .ok ()) ∧
      settled (listVerdicts members edges vertices rank) (marks (listVerdicts members edges vertices)) =
        .error (.rejected fault)

variable {members edges vertices options}

/-- No rank tells a fault when all of them accept what they are given. -/
theorem Accepted.not_refuses (accepted : Accepted edges vertices options)
    (lawful : ∀ rank, (members rank).sorter.Lawful) (checks : options.check = true) (rank : Fin size)
    (fault : InputFault) : ¬ Refuses members edges vertices options rank fault := by
  have own : ∀ rank, ownVerdicts edges vertices options rank = .ok () := accepted.own
  have lists : ∀ rank, listVerdicts members edges vertices rank = .ok () :=
    (verdicts_eq_ok_iff lawful).mpr ⟨accepted.once checks, accepted.listed checks⟩
  -- What is settled is an acceptance, both of the ranks' own input and of the lists.
  rintro (refused | ⟨-, refused⟩)
  · rw [settled_eq_ok own] at refused
    cases refused
  · rw [settled_eq_ok lists] at refused
    cases refused

/-- Ranks may check what they are given. -/
theorem checkInput_leads (lawful : ∀ rank, (members rank).sorter.Lawful)
    (counted : premises.countable → options.check = true →
      (∀ rank, ownVerdicts edges vertices options rank = .ok ()) → everything vertices ≠ [] →
        Compares members edges vertices)
    (rejected : options.check = false → ∀ rank fault,
      ownVerdicts edges vertices options rank = .error fault → premises.rejects rank fault)
    (refused : options.check = true → ∀ rank fault,
      Refuses members edges vertices options rank fault → premises.refuses rank fault) :
    Leads premises.blame (fun _ => True)
      (fun rank => checkInput (members rank) (edges rank) (vertices rank) options)
      (premises.blame.Pending (Passed edges vertices options) fun _ => ()) := by
  unfold checkInput
  cases together : options.check with
  | false =>
    refine Leads.ofExcept (fun rank value _ made => ?_) fun rank error _ failing => ?_
    · exact ⟨⟨mapError_eq_ok_iff.mp made, fun checked => by simp [together] at checked⟩, rfl⟩
    · have own : (ownVerdicts edges vertices options rank).mapError Failure.rejected = .error error :=
        failing
      cases verdict : ownVerdicts edges vertices options rank with
      | ok => simp [verdict] at own
      | error fault =>
        simp only [verdict, mapError_error, Except.error.injEq] at own
        subst own
        exact rejected together rank fault verdict
  | true =>
    refine (compareOptions_leads options).after ((settle_leads fun _ rank fault failing =>
      refused together rank fault (.inl failing)).after ?_)
    -- From here on every rank knows that all ranks accept what they are given themselves.
    refine Leads.given (fun _ fact => fact.2) fun own => ?_
    refine (checkList_leads fun countable => counted countable together own).after
      ((settle_leads fun _ rank fault failing => refused together rank fault (.inr ⟨own, failing⟩)).mono
        (fun _ fact => fact) fun _ held => held.mono fun rank fact => ?_)
    obtain ⟨once, listed⟩ := (verdicts_eq_ok_iff lawful).mp fact.2
    exact ⟨own rank, fun _ => ⟨own, fun _ => once, fun _ => listed⟩⟩

end Checks

end DistGraph.Construction
