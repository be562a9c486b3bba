import DistGraph.Proofs.Construction.Outcomes

/-! Ranks that check their input together construct a graph together or fail together. -/

namespace DistGraph

variable {size : Nat}

/-- Ranks may be short of memory, and reject what they are given together, but alone for given reasons
only. -/
def Premises.short (members : Fin size → Member size) (countable : Prop)
    (alone : Fin size → InputFault → Prop) : Premises members where
  countable := countable
  -- No buffer is granted to anyone.
  roomy := False
  unlimited := False.elim
  countable_of_roomy := False.elim
  rejects := alone
  refuses _ _ := True

/-- Ranks that can count everything stop with errors that they return. -/
theorem Premises.exists_of_stops {α : Type} {members : Fin size → Member size}
    {alone : Fin size → InputFault → Prop} {outcomes : Fin size → Except Failure α}
    (stops : (short members True alone).blame.Stops outcomes) (rank : Fin size) :
    ∃ error, outcomes rank = .error (.graph error) := by
  have own : ∀ failure, (short members True alone).blame.own rank failure →
      ∃ error, failure = .graph error := by
    intro failure own
    cases failure with
    | comm error => exact own.elim
    | defect broken => exact absurd trivial own
    | graph error => exact ⟨error, rfl⟩
  -- Ranks stop because one of them fails or because they all reject, and either way with an error of the
  -- graph.
  rcases stops with ⟨-, each⟩ | each
  · obtain ⟨failure, failed, mine | ⟨cause, rfl⟩⟩ := each rank
    · obtain ⟨error, rfl⟩ := own failure mine
      exact ⟨error, failed⟩
    · exact ⟨_, failed⟩
  · obtain ⟨_, failed, fault, rfl, -⟩ := each rank
    exact ⟨_, failed⟩

namespace Construction

variable {members : Fin size → Member size} {premises : Premises members} {options : Options}
  {edges : Fin size → List Edge} {vertices : Fin size → List VertexId}

/-- In every run, ranks that check their input together come to a graph or stop. -/
theorem construct_outcomes (ranked : ∀ rank, (members rank).rank = rank)
    (lawful : ∀ rank, (members rank).sorter.Lawful) (someone : Fin size)
    (countable : premises.countable → Countable members options edges vertices)
    (allows : Allows premises options edges vertices) (checks : options.check = true)
    (run : Cluster.Run (Vector.ofFn fun rank =>
      construct (members rank) (edges rank) (vertices rank) options)) :
    ∃ outcomes, (∀ rank, run.outcome rank = some (outcomes rank)) ∧
      ((∃ constructed : Fin size → Constructed size, ∀ rank, outcomes rank = .ok (constructed rank)) ∨
        premises.blame.Stops outcomes) := by
  -- Ranks in step come to an outcome in every run.
  obtain ⟨constructed, kept, -, leads⟩ := construct_leads ranked lawful someone countable allows
  obtain ⟨outcomes, ends, reached | stopped⟩ := run.exists_outcomes leads.inStep
  · exact ⟨outcomes, ends, .inl ⟨constructed, reached.2 checks⟩⟩
  · exact ⟨outcomes, ends, .inr stopped⟩

/-- Ranks that construct a graph on given ids were given what they admit, with a number above all ids. -/
theorem admitted_of_constructed (crew : Crew size) (someone : Fin size) (keeps : options.renumber = false)
    {run : Cluster.Run (Vector.ofFn fun rank =>
      construct (crew.members rank) (edges rank) (vertices rank) options)}
    {constructed : Fin size → Constructed size}
    (ends : ∀ rank, run.outcome rank = some (.ok (constructed rank))) :
    Admitted crew.members edges vertices options ∧ Bounded options (handedIn options edges) vertices := by
  obtain ⟨partition, -, computes⟩ := construct_computes_givenIds crew someone edges vertices keeps
  obtain ⟨admitted, bounded, -⟩ := computes.together_iff.mp (run.together_iff.mp ends)
  exact ⟨admitted, bounded⟩

/-- Ranks that check their input together all construct a graph or all return an error, whatever they
are given and however little memory any of them has. -/
theorem construct_all_or_none (crew : Crew size) (occupied : 0 < size) (edges : Fin size → List Edge)
    (vertices : Fin size → List VertexId) (options : Options) (checks : options.check = true)
    (countable : Countable crew.members options edges vertices)
    (run : Cluster.Run (Vector.ofFn fun rank =>
      construct (crew.members rank) (edges rank) (vertices rank) options)) :
    (∃ constructed : Fin size → Constructed size,
      ∀ rank, run.outcome rank = some (.ok (constructed rank))) ∨
    ∀ rank, ∃ error, run.outcome rank = some (.error (.graph error)) := by
  -- No fault is ruled out, so that any input is allowed.
  have allows : Allows (Premises.short crew.members True fun _ _ => True) options edges vertices :=
    ⟨fun _ _ _ _ => trivial, fun _ _ _ _ => trivial, fun _ _ _ _ => trivial⟩
  obtain ⟨outcomes, ends, ⟨constructed, made⟩ | stopped⟩ := construct_outcomes crew.ranked crew.lawful
    ⟨0, occupied⟩ (fun _ => countable) allows checks run
  · exact .inl ⟨constructed, fun rank => by rw [ends, made]⟩
  · refine .inr fun rank => ?_
    rw [ends]
    obtain ⟨error, failed⟩ := Premises.exists_of_stops stopped rank
    exact ⟨error, by rw [failed]⟩

/-- Neither of two ranks constructs a graph if one of them has no memory at all. -/
theorem construct_all_or_none_sample :
    ∃ run : Cluster.Run (Vector.ofFn fun rank : Fin 2 =>
        construct ((Crew.stable ![none, some 0]).members rank) (sampleEdges rank) [] sampleOptions),
      ∀ rank, ∃ error, run.outcome rank = some (.error (.graph error)) := by
  obtain ⟨run⟩ := Cluster.Run.exists_of_programs (Vector.ofFn fun rank : Fin 2 =>
    construct ((Crew.stable ![none, some 0]).members rank) (sampleEdges rank) [] sampleOptions)
  have countable : Countable (Crew.stable ![none, some 0]).members sampleOptions sampleEdges
      fun _ => [] := .of_few (Crew.stable ![none, some 0]).lawful (by decide)
  rcases construct_all_or_none (Crew.stable ![none, some 0]) (by decide) sampleEdges (fun _ => [])
    sampleOptions rfl countable run with ⟨constructed, ends⟩ | fails
  · -- The second rank has no room for the records of its two edges.
    obtain ⟨admitted, -⟩ := admitted_of_constructed (Crew.stable ![none, some 0]) 0 rfl ends
    exact absurd (admitted.recorded 1) (by decide)
  · exact ⟨run, fails⟩

/-- Ranks that check their input together all reject it as soon as one of them does, unless one has to
find a number above the greatest word. -/
theorem construct_rejects_together (crew : Crew size) (edges : Fin size → List Edge)
    (vertices : Fin size → List VertexId) (options : Options) (checks : options.check = true)
    (bounded : options.renumber = false → Bounded options (handedIn options edges) vertices)
    (run : Cluster.Run (Vector.ofFn fun rank =>
      construct (crew.members rank) (edges rank) (vertices rank) options))
    {culprit : Fin size} {fault : InputFault}
    (rejected : run.outcome culprit = some (.error (.rejected fault))) (rank : Fin size) :
    ∃ reason, run.outcome rank = some (.error (.rejected reason)) := by
  have allows : Allows (Premises.short crew.members False fun _ _ => False) options edges vertices := by
    refine ⟨fun alone => ?_, fun _ _ _ _ => trivial, fun keeps absent rank great => ?_⟩
    · rw [checks] at alone
      cases alone
    · exact bounded keeps absent rank _ great rfl
  obtain ⟨outcomes, ends, ⟨constructed, made⟩ | ⟨-, each⟩ | each⟩ := construct_outcomes crew.ranked
    crew.lawful culprit False.elim allows checks run
  · rw [ends, made] at rejected
    cases rejected
  · -- A rank that stops because of others or for lack of something does not reject its input.
    obtain ⟨failure, failed, own | ⟨cause, rfl⟩⟩ := each culprit
    · rw [ends, failed, Option.some.injEq, Except.error.injEq] at rejected
      subst rejected
      exact own.elim
    · rw [ends, failed] at rejected
      cases rejected
  · obtain ⟨failure, failed, reason, rfl, -⟩ := each rank
    exact ⟨reason, by rw [ends, failed]⟩

/-- An edge of the first of two ranks that leaves the greatest word. -/
def greatEdges : Fin 2 → List Edge :=
  ![[⟨0xffffffffffffffff, 0, none, none, none⟩], []]

/-- Options of ranks that check their input together and keep the given ids. -/
def keepingOptions : Options where
  renumber := false
  check := true

/-- Two ranks of which the first names the greatest word reject it together where that lies above the
number of vertices. -/
theorem construct_rejects_together_sample :
    ∃ run : Cluster.Run (Vector.ofFn fun rank : Fin 2 =>
        construct ((Crew.stable fun _ => none).members rank) (greatEdges rank) []
          { keepingOptions with vertexCount := some 2 }),
      ∀ rank, ∃ reason, run.outcome rank = some (.error (.rejected reason)) := by
  obtain ⟨run⟩ := Cluster.Run.exists_of_programs (Vector.ofFn fun rank : Fin 2 =>
    construct ((Crew.stable fun _ => none).members rank) (greatEdges rank) []
      { keepingOptions with vertexCount := some 2 })
  -- Only what the checks between ranks refuse is allowed to stop anyone.
  have allows : Allows (@Premises.judging 2 (Crew.stable fun _ => none).members (fun _ => rfl)
      (fun _ _ => False) fun _ _ => True) { keepingOptions with vertexCount := some 2 } greatEdges
      fun _ => [] := by
    refine ⟨fun alone => ?_, fun _ _ _ _ => trivial, fun _ absent => ?_⟩
    · cases alone
    · cases absent
  -- Constructing it would need the greatest word to be below two, which leaves that they all reject.
  obtain ⟨outcomes, ends, ⟨constructed, made⟩ | ⟨⟨culprit, failure, -, own⟩, -⟩ | each⟩ :=
    construct_outcomes (Crew.stable fun _ => none).ranked (Crew.stable fun _ => none).lawful 0
      (fun _ => .of_few (Crew.stable fun _ => none).lawful (by decide)) allows rfl run
  · have constructs : ∀ rank, run.outcome rank = some (.ok (constructed rank)) :=
      fun rank => by rw [ends, made]
    obtain ⟨admitted, -⟩ := admitted_of_constructed (Crew.stable fun _ => none) 0 rfl constructs
    exact absurd (admitted.accepted.own 0) (by decide)
  · obtain ⟨fault, -, none_there⟩ := Premises.exists_of_owns_judging own
    exact none_there.elim
  · obtain ⟨_, failed, fault, rfl, -⟩ := each 0
    refine ⟨run, construct_rejects_together (Crew.stable fun _ => none) greatEdges (fun _ => [])
      { keepingOptions with vertexCount := some 2 } rfl (fun _ absent => ?_) run
      (by rw [ends 0, failed])⟩
    cases absent

/-- Without a number of vertices the second rank is not told that the first one rejects its input. -/
theorem exists_rejects_alone :
    ∃ run : Cluster.Run (Vector.ofFn fun rank : Fin 2 =>
        construct ((Crew.stable fun _ => none).members rank) (greatEdges rank) [] keepingOptions),
      run.outcome 0 = some (.error (.rejected (.idTooLarge 0xffffffffffffffff))) ∧
      ∃ cause, run.outcome 1 = some (.error (.graph (.protocolBroken cause))) := by
  obtain ⟨run⟩ := Cluster.Run.exists_of_programs (Vector.ofFn fun rank : Fin 2 =>
    construct ((Crew.stable fun _ => none).members rank) (greatEdges rank) [] keepingOptions)
  have allows : Allows (@Premises.judging 2 (Crew.stable fun _ => none).members (fun _ => rfl)
      (fun rank fault => rank = 0 ∧ fault = .idTooLarge 0xffffffffffffffff) fun _ _ => False)
      keepingOptions greatEdges fun _ => [] := by
    refine ⟨fun alone => ?_, fun _ rank fault refuses => ?_, fun _ _ rank great => ⟨?_, rfl⟩⟩
    · cases alone
    · have accepted : Accepted greatEdges (fun _ => []) keepingOptions :=
        ⟨by decide, fun _ => List.nodup_nil, fun _ listed => absurd rfl listed⟩
      exact accepted.not_refuses (Crew.stable fun _ => none).lawful rfl rank fault refuses
    · revert rank
      decide
  -- Of the ways in which the ranks can end, only that one remains in which the first rank rejects.
  obtain ⟨outcomes, ends, ⟨constructed, made⟩ | ⟨⟨culprit, failure, failed, own⟩, each⟩ | each⟩ :=
    construct_outcomes (Crew.stable fun _ => none).ranked (Crew.stable fun _ => none).lawful 0
      (fun _ => .of_few (Crew.stable fun _ => none).lawful (by decide)) allows rfl run
  · have constructs : ∀ rank, run.outcome rank = some (.ok (constructed rank)) :=
      fun rank => by rw [ends, made]
    obtain ⟨-, bounded⟩ := admitted_of_constructed (Crew.stable fun _ => none) 0 rfl constructs
    exact absurd rfl (bounded rfl 0 0xffffffffffffffff (List.Mem.head _))
  · obtain ⟨_, rfl, rfl, rfl⟩ := Premises.exists_of_owns_judging own
    refine ⟨run, by rw [ends, failed], ?_⟩
    obtain ⟨failure, left, own | ⟨cause, rfl⟩⟩ := each 1
    · obtain ⟨_, -, other, -⟩ := Premises.exists_of_owns_judging own
      cases other
    · exact ⟨cause, by rw [ends, left]⟩
  · obtain ⟨_, -, _, -, none_there⟩ := each 0
    exact none_there.elim

end Construction

end DistGraph
