import DistGraph.Proofs.Construction.Faults
import DistGraph.Proofs.Construction.Failing

/-! Ranks that check their input together reject exactly what there is something to object to. -/

namespace DistGraph.Construction

variable {size : Nat} {options : Options} {edges : Fin size → List Edge}
  {vertices : Fin size → List VertexId}

/-- What passes all checks is not objected to. -/
theorem Accepted.not_objection (accepted : Accepted edges vertices options)
    (checks : options.check = true) : ¬ Objection edges vertices options := by
  intro objection
  -- Each kind of objection is one that a check rules out.
  cases objection with
  | weight rank held given infinite =>
    have finite := (checkOwn_eq_ok_iff.mp (accepted.own rank)).1 _ held _ given
    exact absurd finite (by simp [infinite])
  | outside rank given held beyond =>
    have below := lt_of_checkOwn given (accepted.own rank) _ held
    exact absurd below (UInt64.not_lt.mpr beyond)
  | @twice vertex many =>
    have once := List.nodup_iff_count_le_one.mp (accepted.once checks) vertex
    omega
  | missing someListed used absent => exact absent (accepted.listed checks someListed _ used)

/-- What is not objected to passes all checks. -/
theorem accepted_of_not_objection (fine : ¬ Objection edges vertices options) :
    Accepted edges vertices options := by
  -- Whatever a check would find is a kind of objection.
  refine ⟨fun rank => checkOwn_eq_ok_iff.mpr ⟨fun edge held weight given => ?_,
    fun limit given id held => ?_⟩, fun _ => ?_, fun _ someListed vertex used => ?_⟩
  · by_contra infinite
    exact fine (.weight rank held given (by simpa using infinite))
  · by_contra beyond
    exact fine (.outside rank given held (UInt64.not_lt.mp beyond))
  · rw [List.nodup_iff_count_le_one]
    intro vertex
    by_contra many
    exact fine (.twice (show 2 ≤ (everything vertices).count vertex by omega))
  · by_contra absent
    exact fine (.missing someListed used absent)

/-- Ranks that have constructed a graph were given what passes all checks. -/
theorem accepted_of_constructed (crew : Crew size)
    {run : Cluster.Run (Vector.ofFn fun rank =>
      construct (crew.members rank) (edges rank) (vertices rank) options)}
    {constructed : Fin size → Constructed size}
    (ends : ∀ rank, run.outcome rank = some (.ok (constructed rank))) :
    Accepted edges vertices options := by
  have together := run.together_iff.mp ends
  -- Checking comes first, and no rank gets past it with input that is not accepted.
  simp only [construct_eq] at together
  obtain ⟨_, ⟨⟨accepted, -⟩, -⟩, -⟩ := (checkInput_computes options crew.lawful _ _ _).mp together
  exact accepted

section Refused

variable {members : Fin size → Member size} {outcome : Fin size → Option (Except Failure (Constructed size))}
  (refused : ∀ rank, ∃ fault, outcome rank = some (.error (.rejected fault)) ∧
    Refuses members edges vertices options rank fault)

include refused

/-- Faults of what single ranks are given are reported before any list is compared. -/
theorem reported_own (bounded : ∀ rank, options.renumber = false → options.vertexCount = none →
      0xffffffffffffffff ∉ Reference.vertices options (edges rank) (vertices rank))
    (found : ∃ rank fault, OwnFault (edges rank) (vertices rank) options fault) :
    Reported (fun rank => OwnFault (edges rank) (vertices rank) options) outcome := by
  obtain ⟨culprit, reason, faulty⟩ := found
  have sound : ∀ rank fault, ownVerdicts edges vertices options rank = .error fault →
      OwnFault (edges rank) (vertices rank) options fault := fun _ _ => ownFault_of_checkOwn
  refine reported_of_settled sound
    (fun rank passed fault => not_ownFault_of_checkOwn passed (bounded rank)) fun rank => ?_
  -- The culprit does not pass its own check, so that the ranks stop at the first verdicts.
  obtain ⟨fault, ends, own | ⟨passed, -⟩⟩ := refused rank
  · exact ⟨fault, ends, own⟩
  · exact absurd faulty (not_ownFault_of_checkOwn (passed culprit) (bounded culprit))

/-- Faults of the lists are reported if every rank accepts what it is given itself. -/
theorem reported_lists (lawful : ∀ rank, (members rank).sorter.Lawful)
    (passed : ∀ rank, checkOwn (edges rank) (vertices rank) options = .ok ()) :
    Reported (ListFault edges vertices) outcome := by
  have sound : ∀ rank fault, listVerdicts members edges vertices rank = .error fault →
      ListFault edges vertices rank fault := fun _ _ => listFault_of_listVerdicts lawful
  refine reported_of_settled sound
    (fun rank accepted fault => not_listFault_of_listVerdicts lawful accepted) fun rank => ?_
  obtain ⟨fault, ends, own | ⟨-, lists⟩⟩ := refused rank
  · -- No rank stops at the first checks if all of them pass these.
    have accepted : ∀ rank, ownVerdicts edges vertices options rank = .ok () := passed
    rw [settled_eq_ok accepted] at own
    cases own
  · exact ⟨fault, ends, lists⟩

end Refused

section Granted

variable (crew : Crew size) (someone : Fin size) (free : ∀ rank, (crew.members rank).memory = none)
  (checks : options.check = true)
  (bounded : ∀ rank, options.renumber = false → options.vertexCount = none →
    0xffffffffffffffff ∉ Reference.vertices options (edges rank) (vertices rank))
  (countable : Countable crew.members options edges vertices)
  (run : Cluster.Run (Vector.ofFn fun rank =>
    construct (crew.members rank) (edges rank) (vertices rank) options))

include someone free checks bounded countable

/-- Ranks that lack nothing all construct a graph or all reject what they are given. -/
theorem constructed_or_refused :
    (∃ constructed : Fin size → Constructed size,
      ∀ rank, run.outcome rank = some (.ok (constructed rank))) ∨
    ∀ rank, ∃ fault, run.outcome rank = some (.error (.rejected fault)) ∧
      Refuses crew.members edges vertices options rank fault := by
  -- Memory is free and everything can be counted, which leaves faults of the input.
  have allows : Allows (Premises.judging free (fun _ _ => False)
      (Refuses crew.members edges vertices options)) options edges vertices := by
    refine ⟨fun alone => ?_, fun _ _ _ refuses => refuses, fun keeps absent rank great => ?_⟩
    · rw [checks] at alone
      cases alone
    · exact bounded rank keeps absent (mem_named_handedIn_iff.mp great)
  obtain ⟨outcomes, ends, ⟨constructed, made⟩ | ⟨⟨culprit, failure, -, own⟩, -⟩ | each⟩ :=
    construct_outcomes crew.ranked crew.lawful someone (fun _ => countable) allows checks run
  · exact .inl ⟨constructed, fun rank => by rw [ends, made]⟩
  · obtain ⟨fault, -, nothing⟩ := Premises.exists_of_owns_judging own
    exact nothing.elim
  · refine .inr fun rank => ?_
    obtain ⟨failure, failed, fault, rfl, refuses⟩ := each rank
    exact ⟨fault, by rw [ends, failed], refuses⟩

/-- Ranks that lack nothing construct a graph of what passes all checks. -/
theorem exists_constructed (accepted : Accepted edges vertices options) :
    ∃ constructed : Fin size → Constructed size,
      ∀ rank, run.outcome rank = some (.ok (constructed rank)) := by
  -- What is accepted is refused by nobody.
  rcases constructed_or_refused crew someone free checks bounded countable run with constructs | refused
  · exact constructs
  · obtain ⟨fault, -, refuses⟩ := refused someone
    exact absurd refuses (accepted.not_refuses crew.lawful checks someone fault)

end Granted

/-- Two ranks without a limit construct a graph of the sample edges. -/
theorem exists_sample_constructed (crew : Crew 2) (free : ∀ rank, (crew.members rank).memory = none)
    (run : Cluster.Run (Vector.ofFn fun rank : Fin 2 =>
      construct (crew.members rank) (sampleEdges rank) [] sampleOptions)) :
    ∃ constructed : Fin 2 → Constructed 2, ∀ rank, run.outcome rank = some (.ok (constructed rank)) := by
  -- None of the ids is the greatest word, so that there is a number of vertices above them.
  have bounded : ∀ rank : Fin 2,
      0xffffffffffffffff ∉ Reference.vertices sampleOptions (sampleEdges rank) [] := by decide
  exact exists_constructed crew 0 free rfl (fun rank _ _ => bounded rank)
    (.of_few crew.lawful (by decide)) run sample_accepted

/-- Ranks without a limit that check their input together and can count what they exchange all
reject it if there is something to object to, and all construct a graph if there is not.

If some rank finds a fault with what it is given itself, such faults are reported, and otherwise
faults of the lists are, by the ranks that the ids in question are at home on. Kept ids have to leave
room for a number of vertices above them. -/
theorem construct_verdict (crew : Crew size) (occupied : 0 < size)
    (free : ∀ rank, (crew.members rank).memory = none) (edges : Fin size → List Edge)
    (vertices : Fin size → List VertexId) (options : Options) (checks : options.check = true)
    (small : options.renumber = false → options.vertexCount = none →
      ∀ rank, ∀ id ∈ endpoints (edges rank) ++ vertices rank, id ≠ 0xffffffffffffffff)
    (countable : Countable crew.members options edges vertices)
    (run : Cluster.Run (Vector.ofFn fun rank =>
      construct (crew.members rank) (edges rank) (vertices rank) options)) :
    ((∀ rank, ∃ fault, run.outcome rank = some (.error (.rejected fault))) ↔
      Objection edges vertices options) ∧
    (¬ Objection edges vertices options → ∃ constructed : Fin size → Constructed size,
      ∀ rank, run.outcome rank = some (.ok (constructed rank))) ∧
    ((∃ rank fault, OwnFault (edges rank) (vertices rank) options fault) →
      Reported (fun rank => OwnFault (edges rank) (vertices rank) options) run.outcome) ∧
    ((∀ rank fault, ¬ OwnFault (edges rank) (vertices rank) options fault) →
      Objection edges vertices options → Reported (ListFault edges vertices) run.outcome) := by
  -- The greatest word is ruled out for all ranks together, and so for each of them.
  have bounded : ∀ rank, options.renumber = false → options.vertexCount = none →
      0xffffffffffffffff ∉ Reference.vertices options (edges rank) (vertices rank) := by
    intro rank keeps absent held
    exact small keeps absent rank _ (named_subset options rank (mem_named_handedIn_iff.mpr held)) rfl
  rcases constructed_or_refused crew ⟨0, occupied⟩ free checks bounded countable run with
    ⟨constructed, constructs⟩ | refused
  · -- All ranks have constructed a graph, so there was nothing to object to.
    have accepted := accepted_of_constructed crew constructs
    have fine := accepted.not_objection checks
    refine ⟨⟨fun rejects => ?_, fun objection => absurd objection fine⟩,
      fun _ => ⟨constructed, constructs⟩, fun ⟨rank, fault, found⟩ => ?_,
      fun _ objection => absurd objection fine⟩
    · obtain ⟨fault, ended⟩ := rejects ⟨0, occupied⟩
      rw [constructs] at ended
      cases ended
    · exact absurd found (not_ownFault_of_checkOwn (accepted.own rank) (bounded rank))
  · -- All ranks have rejected what they were given, each for a reason that the checks give.
    have objection : Objection edges vertices options := by
      by_contra fine
      obtain ⟨fault, -, refuses⟩ := refused ⟨0, occupied⟩
      exact (accepted_of_not_objection fine).not_refuses crew.lawful checks _ fault refuses
    refine ⟨⟨fun _ => objection, fun _ rank => ?_⟩, fun fine => absurd objection fine,
      reported_own refused bounded, fun nothing _ => reported_lists refused crew.lawful fun rank => ?_⟩
    · obtain ⟨fault, ended, -⟩ := refused rank
      exact ⟨fault, ended⟩
    · cases passed : checkOwn (edges rank) (vertices rank) options with
      | ok => rfl
      | error fault => exact absurd (ownFault_of_checkOwn passed) (nothing rank fault)

/-- Of two ranks that list the same vertex, the one that it is at home on tells so, and the other one
names that rank. -/
theorem construct_verdict_sample :
    ∃ run : Cluster.Run (Vector.ofFn fun rank : Fin 2 =>
        construct ((Crew.stable fun _ => none).members rank) [] [5] sampleOptions),
      run.outcome 0 = some (.error (.rejected (.listedTwice 5))) ∧
      run.outcome 1 = some (.error (.rejected (.rejectedBy 0))) := by
  obtain ⟨run⟩ := Cluster.Run.exists_of_programs (Vector.ofFn fun rank : Fin 2 =>
    construct ((Crew.stable fun _ => none).members rank) [] [5] sampleOptions)
  obtain ⟨-, -, -, lists⟩ := construct_verdict (Crew.stable fun _ => none) (by decide) (fun _ => rfl)
    (fun _ => []) (fun _ => [5]) sampleOptions rfl
    (fun _ _ _ => List.forall_mem_singleton.mpr (by decide))
    (.of_few (Crew.stable fun _ => none).lawful (by decide)) run
  have home : homeRank 5 2 = .ok 0 := by decide
  have many : 2 ≤ (everything fun _ : Fin 2 => [(5 : VertexId)]).count 5 := by decide
  -- Neither rank has a fault of its own, so that the lists are what is reported.
  have reported := lists (fun _ fault found => by
    cases found with
    | weight held => cases held
    | outside given => cases given
    | tooLarge keeps absent held => revert held; decide) (.twice many)
  -- The only fault is the vertex 5, and it is at home on rank 0.
  have only : ∀ rank fault, ListFault (fun _ : Fin 2 => []) (fun _ => [5]) rank fault →
      rank = 0 ∧ fault = .listedTwice 5 := by
    intro rank fault found
    cases found with
    | missing _ _ used => cases used
    | @twice vertex there many =>
      have listed : vertex ∈ [(5 : VertexId), 5] := List.count_pos_iff.mp (Nat.lt_of_lt_of_le Nat.two_pos many)
      obtain rfl : vertex = 5 := by simpa using listed
      rw [home] at there
      exact ⟨Fin.ext (Except.ok.inj there).symm, rfl⟩
  refine ⟨run, ?_, ?_⟩
  · obtain ⟨fault, found, ends⟩ := reported.own 0 ⟨_, .twice home many⟩
    rw [ends, (only 0 fault found).2]
  · obtain ⟨culprit, ⟨fault, found⟩, -, ends⟩ := reported.others 1 fun fault found =>
      absurd (only 1 fault found).1 (by decide)
    rw [ends, (only culprit fault found).1]
    rfl

end DistGraph.Construction
