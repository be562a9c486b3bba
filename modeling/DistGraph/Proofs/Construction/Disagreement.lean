import DistGraph.Proofs.Construction.Verdict
import DistGraph.Proofs.Options
import DistGraph.Proofs.Routing.Apart

/-! Ranks that were given options which differ in a single one do not construct a graph together. -/

namespace DistGraph.Construction

variable {size : Nat}

section Calls

variable (member : Member size) (edges : List Edge) (vertices : List VertexId) (options : Options)

/-- Ranks that check their input together compare their options and then tell their verdicts. -/
theorem checkInput_begins (checks : options.check = true) :
    (checkInput member edges vertices options).Begins [.gather Wire.word, .gather Wire.byte] := by
  unfold checkInput compareOptions
  rw [if_pos checks, bind_assoc]
  refine Program.issue_begins _ fun fingerprints => ?_
  -- Ranks that find their options apart stop before the second exchange.
  by_cases same : allEqual fingerprints.toList
  · rw [if_pos same]
    have settles : (settle (checkOwn edges vertices options) : Program size Failure Unit).Begins
        [.gather Wire.byte] := Program.issue_begins _ fun _ => trivial
    exact settles.bind _
  · rw [if_neg same]
    exact .inl ⟨_, rfl⟩

/-- The exchanges by which a rank starts to build a graph. -/
def firstCalls : List Call :=
  -- A number of vertices that is not given is agreed on first, if ids are kept.
  match options.renumber, options.vertexCount with
  | false, none => [.gather Wire.word, .counts]
  | _, _ => [.counts]

/-- Records are sent first, unless the number of vertices has to be agreed on. -/
theorem build_begins (records : List EdgeRecord) :
    (build member records vertices options).Begins (firstCalls options) := by
  have gathers : ∀ otherwise : Placement,
      (gatherParallel member options otherwise records).Begins [.counts] :=
    fun _ => Routing.sendRecords_begins.bind _
  unfold build firstCalls
  -- Records travel at once if vertices get new ids, or as soon as their number is known.
  cases renumbers : options.renumber with
  | true => exact (gathers _).bind _
  | false =>
    simp only [Bool.false_eq_true, if_false, onGivenIds_eq]
    unfold countVertices
    cases given : options.vertexCount with
    | none =>
      rw [bind_assoc]
      refine .ofExcept (vertexBound records vertices) fun bound => ?_
      exact Communicator.fold_begins Wire.word Communicator.Reduction.max.combine bound fun count =>
        .ofExcept (Failure.ofDefect (Partition.even count size)) fun partition => (gathers _).bind _
    | some limit =>
      exact .ofExcept (Failure.ofDefect (Partition.even limit size)) fun partition =>
        (gathers _).bind _

/-- A rank that checks its input by itself starts with what builds the graph. -/
theorem construct_begins_alone (alone : options.check = false) :
    (construct member edges vertices options).Begins (firstCalls options) := by
  rw [construct_eq]
  -- The checks of a rank by itself exchange nothing.
  unfold checkInput
  simp only [alone, Bool.false_eq_true, if_false]
  exact .ofExcept ((checkOwn edges vertices options).mapError Failure.rejected) fun _ =>
    .ofExcept (recordsOf member edges options) fun records =>
      (build_begins member vertices options records).bind _

end Calls

section Mixed

variable {members : Fin size → Member size} {edges : Fin size → List Edge}
  {vertices : Fin size → List VertexId} {chosen : Fin size → Options}

/-- Values that are not all equal are told apart. -/
theorem allEqual_ofFn_ne {values : Fin size → UInt64} {left right : Fin size}
    (apart : values left ≠ values right) : allEqual (Vector.ofFn values).toList = false := by
  rw [Bool.eq_false_iff]
  intro equal
  unfold allEqual at equal
  rw [Vector.toList_ofFn, List.all_eq_true] at equal
  -- If all values were equal, each of them would be the first one.
  have first : ∀ rank, (List.ofFn values).head? = some (values rank) := fun rank =>
    beq_iff_eq.mp (equal _ (List.mem_ofFn.mpr ⟨rank, rfl⟩))
  exact apart (Option.some.inj ((first left).symm.trans (first right)))

/-- Ranks whose options have different digests do not get past their comparison. -/
theorem compareOptions_doomed {α : Type} {later : Fin size → Unit → Program size Failure α}
    (left right : Fin size) (apart : (chosen left).fingerprint ≠ (chosen right).fingerprint) :
    Doomed fun rank => compareOptions (chosen rank) >>= later rank := by
  have stands : ∀ rank, (compareOptions (chosen rank) >>= later rank) =
      .exchange (.gather Wire.word) (Vector.replicate size (chosen rank).fingerprint)
        (fun error => Failure.ofGraph (.comm error)) fun fingerprints =>
          (if allEqual fingerprints.toList then pure () else .fail (.diverged .options)) >>= later rank :=
    fun _ => rfl
  -- All ranks are given the same digests, and fail on them alike.
  have fails : ∀ rank, ((if allEqual (Cluster.delivered (fun rank : Fin size => (Vector.replicate size
      (chosen rank).fingerprint : Vector (Call.gather Wire.word).Item size)) rank).toList then pure ()
        else .fail (.diverged .options)) >>= later rank : Program size Failure α) =
          .fail (.diverged .options) := by
    intro rank
    rw [Communicator.delivered_replicate, allEqual_ofFn_ne apart]
    rfl
  refine .meets stands (.of_failed left (fails left) fun rank value done => ?_)
  rw [fails rank] at done
  cases done

/-- Ranks whose options have the same digest may check their input together, whatever else they are
given. -/
theorem checkInput_inStep (checks : ∀ rank, (chosen rank).check = true) {common : UInt64}
    (alike : ∀ rank, (chosen rank).fingerprint = common) :
    InStep (Premises.short members False fun _ _ => True).blame (fun _ => True) fun rank =>
      checkInput (members rank) (edges rank) (vertices rank) (chosen rank) := by
  let premises := Premises.short members False fun _ _ => True
  have compares : Leads premises.blame (fun _ => True) (fun rank => compareOptions (chosen rank))
      (premises.blame.Pending (fun _ => True) fun _ => ()) := by
    refine ((Communicator.allGather_leads Wire.word fun rank => (chosen rank).fingerprint).after ?_).mono
      (fun _ fact => fact) fun _ held => held
    simp only [alike, allEqual_ofFn, if_true]
    exact (Leads.pure _).mono (fun _ _ => trivial) fun _ held => held
  have settles : ∀ verdicts : Fin size → Verdict,
      Leads premises.blame (fun _ => True) (fun rank => settle (verdicts rank))
        (premises.blame.Pending (fun _ => True) fun _ => ()) := fun verdicts =>
    (settle_leads fun _ _ _ _ => trivial).mono (fun _ fact => fact)
      fun _ held => held.mono fun _ _ => trivial
  have lists : Leads premises.blame (fun _ => True)
      (fun rank => checkList (members rank) (edges rank) (vertices rank))
      (premises.blame.Pending (fun _ => True) (listVerdicts members edges vertices)) :=
    (checkList_leads False.elim).mono (fun _ fact => fact) fun _ held => held.mono fun _ _ => trivial
  -- Every check runs through on all ranks, whatever they compare, so that they stay in step.
  unfold checkInput
  simp only [checks, if_true]
  exact ((compares.after ((settles _).after (lists.after (settles _)))).inStep).mono
    fun _ _ => trivial

/-- Ranks whose options have the same digest do not construct a graph if they start to build it with
different exchanges. -/
theorem construct_doomed_of_firstCalls (common : UInt64) (left right : Fin size)
    (checks : ∀ rank, (chosen rank).check = true) (alike : ∀ rank, (chosen rank).fingerprint = common)
    (apart : (firstCalls (chosen left))[0]? ≠ (firstCalls (chosen right))[0]?) :
    Doomed fun rank => construct (members rank) (edges rank) (vertices rank) (chosen rank) := by
  simp only [construct_eq]
  refine .of_inStep (checkInput_inStep checks alike) fun pending _ => ?_
  -- Once the checks have passed, the ranks wait at exchanges that do not match.
  refine .of_begins left right 0 (fun rank => .ofExcept (pending rank) fun _ =>
    .ofExcept (recordsOf (members rank) (edges rank) (chosen rank)) fun records =>
      (build_begins (members rank) (vertices rank) (chosen rank) records).bind _) (fun rank => ?_) apart
  unfold firstCalls
  split <;> decide

/-- Ranks of which some check their input together and others do not never construct a graph if they
start to build it with the same exchanges. -/
theorem construct_doomed_of_check {first : List Call} (checking alone : Fin size)
    (firsts : ∀ rank, firstCalls (chosen rank) = first) (checks : (chosen checking).check = true)
    (skips : (chosen alone).check = false) :
    Doomed fun rank => construct (members rank) (edges rank) (vertices rank) (chosen rank) := by
  let calls : Fin size → List Call := fun rank =>
    if (chosen rank).check then [.gather Wire.word, .gather Wire.byte] else first
  have begins : ∀ rank, (construct (members rank) (edges rank) (vertices rank) (chosen rank)).Begins
      (calls rank) := by
    intro rank
    dsimp only [calls]
    split
    · rename_i checked
      rw [construct_eq]
      exact (checkInput_begins _ _ _ _ checked).bind _
    · rename_i unchecked
      rw [← firsts rank]
      exact construct_begins_alone _ _ _ _ (by simpa using unchecked)
  have here : calls checking = [.gather Wire.word, .gather Wire.byte] := if_pos checks
  have there : calls alone = first := if_neg (by simp [skips])
  -- Bytes are gathered where the others exchange counts, or digests where they do so right away.
  have either : first = [.gather Wire.word, .counts] ∨ first = [.counts] := by
    rw [← firsts alone]
    unfold firstCalls
    split <;> simp
  rcases either with rfl | rfl
  · refine .of_begins checking alone 1 begins (fun rank => ?_) (by rw [here, there]; decide)
    dsimp only [calls]
    split <;> decide
  · refine .of_begins checking alone 0 begins (fun rank => ?_) (by rw [here, there]; decide)
    dsimp only [calls]
    split <;> decide

end Mixed

open Options (OneApart Confused)

/-- Options that differ and have the same digest all the same lead to different first exchanges, unless
they differ in the budget or in a number of vertices that get new ids. -/
theorem firstCalls_ne_of_fingerprint_eq {left right : Options} (apart : left.OneApart right)
    (count : left.renumber = true → ¬ Confused left.vertexCount right.vertexCount)
    (budget : ¬ Confused left.segmentBudget right.segmentBudget)
    (alike : left.fingerprint = right.fingerprint) :
    (firstCalls left)[0]? ≠ (firstCalls right)[0]? := by
  -- Only the numbers of vertices can be confused, and these show if ids are kept.
  have confused : Confused left.vertexCount right.vertexCount := by
    by_contra told
    exact apart.fingerprint_ne told budget alike
  have keeps : left.renumber = false := by
    by_contra renumbers
    exact count (by simpa using renumbers) confused
  have keepsToo : right.renumber = false := (apart.renumber_eq confused).trans keeps
  unfold firstCalls
  rw [keeps, keepsToo]
  generalize left.vertexCount = own at confused
  generalize right.vertexCount = its at confused
  cases confused <;> decide

/-- Ranks of which some are given one choice of options and the others one that differs in a single
option, of which at least one asks for checks between ranks, all fail in every run, whatever they are
given and however little memory any of them has.

Digests do not tell a number that is not given from the greatest one. The number of vertices shows
otherwise if ids are kept, and the budget of a segment never does. -/
theorem construct_mixed_fails (members : Fin size → Member size) (edges : Fin size → List Edge)
    (vertices : Fin size → List VertexId) {left right : Options} (apart : left.OneApart right)
    (checked : left.check = true ∨ right.check = true)
    (count : left.renumber = true → ¬ Confused left.vertexCount right.vertexCount)
    (budget : ¬ Confused left.segmentBudget right.segmentBudget) {chosen : Fin size → Options}
    (each : ∀ rank, chosen rank = left ∨ chosen rank = right) (someLeft : ∃ rank, chosen rank = left)
    (someRight : ∃ rank, chosen rank = right)
    (run : Cluster.Run (Vector.ofFn fun rank =>
      construct (members rank) (edges rank) (vertices rank) (chosen rank))) (rank : Fin size) :
    ∃ failure, run.outcome rank = some (.error failure) := by
  refine run.exists_failure ?_ rank
  obtain ⟨one, isLeft⟩ := someLeft
  obtain ⟨other, isRight⟩ := someRight
  -- The option that differs is the check itself, or all ranks check.
  rcases apart.check_eq_or with same | flipped
  · have checks : ∀ rank, (chosen rank).check = true := by
      intro rank
      have both : left.check = true := checked.elim id fun checks => same ▸ checks
      rcases each rank with is | is
      · rw [is, both]
      · rw [is, same, both]
    -- Options with different digests are told apart in the first exchange, and others in what follows it.
    by_cases alike : left.fingerprint = right.fingerprint
    · refine construct_doomed_of_firstCalls left.fingerprint one other checks (fun rank => ?_) ?_
      · rcases each rank with is | is
        · rw [is]
        · rw [is, alike]
      · rw [isLeft, isRight]
        exact firstCalls_ne_of_fingerprint_eq apart count budget alike
    · simp only [construct_eq, checkInput, checks, if_true, bind_assoc]
      exact compareOptions_doomed one other (by rwa [isLeft, isRight])
  · -- Only the check differs, so that those who skip it start with what the others do after it.
    have firsts : ∀ rank, firstCalls (chosen rank) = firstCalls left := by
      intro rank
      rcases each rank with is | is
      · rw [is]
      · rw [is, flipped]
        rfl
    cases checks : left.check with
    | true =>
      exact construct_doomed_of_check one other firsts (by rw [isLeft, checks])
        (by rw [isRight, flipped, checks]; rfl)
    | false =>
      exact construct_doomed_of_check other one firsts (by rw [isRight, flipped, checks]; rfl)
        (by rw [isLeft, checks])

/-- Neither of two ranks constructs a graph if only one of them checks its input together with the
other. -/
theorem construct_mixed_fails_sample :
    ∃ run : Cluster.Run (Vector.ofFn fun rank : Fin 2 =>
        construct ((Crew.stable fun _ => none).members rank) (sampleEdges rank) []
          (![sampleOptions, { sampleOptions with check := false }] rank)),
      ∀ rank, ∃ failure, run.outcome rank = some (.error failure) := by
  obtain ⟨run⟩ := Cluster.Run.exists_of_programs (Vector.ofFn fun rank : Fin 2 =>
    construct ((Crew.stable fun _ => none).members rank) (sampleEdges rank) []
      (![sampleOptions, { sampleOptions with check := false }] rank))
  -- The options differ in the check, which is the case in which ranks wait for different exchanges.
  have apart : sampleOptions.OneApart { sampleOptions with check := false } := .check (by decide)
  exact ⟨run, construct_mixed_fails (Crew.stable fun _ => none).members sampleEdges (fun _ => []) apart
    (.inl rfl) (fun _ => nofun) nofun (by decide) ⟨0, rfl⟩ ⟨1, rfl⟩ run⟩

/-- A rank that gives the greatest number of vertices does the same as one that gives none, as long as
vertices get new ids and its own ids are below that number. -/
theorem construct_greatest_count (member : Member size) {edges : List Edge} {vertices : List VertexId}
    {options : Options} (renumbers : options.renumber = true) (absent : options.vertexCount = none)
    (below : ∀ id ∈ endpoints edges ++ vertices, id < 0xffffffffffffffff) :
    construct member edges vertices { options with vertexCount := some 0xffffffffffffffff } =
      construct member edges vertices options := by
  have passes : checkBounds (some 0xffffffffffffffff) (endpoints edges ++ vertices) =
      checkBounds options.vertexCount (endpoints edges ++ vertices) := by
    rw [absent]
    exact checkBounds_eq_ok_iff.mpr below
  -- Folded into the digest, a number that is not given is the greatest word.
  have told : Options.fingerprint { options with vertexCount := some 0xffffffffffffffff } =
      options.fingerprint := by
    simp only [Options.fingerprint, Options.words, absent, Options.limitWord, Option.getD]
  have checks : checkInput member edges vertices
      { options with vertexCount := some 0xffffffffffffffff } = checkInput member edges vertices options := by
    simp only [checkInput, compareOptions, checkOwn, passes, told]
  rw [construct_eq, construct_eq, checks]
  unfold build
  simp only [renumbers, if_true]
  rfl

/-- The options of a rank that gives no number of vertices. -/
def openOptions : Options :=
  { check := true }

/-- The options of a rank that gives the greatest number of vertices there is. -/
def closedOptions : Options :=
  { openOptions with vertexCount := some 0xffffffffffffffff }

/-- Edges of two ranks, of which the first one names an id that the second one would not accept. -/
def disputedEdges : Fin 2 → List Edge :=
  ![[⟨0xffffffffffffffff, 0, none, none, none⟩], [⟨0, 1, none, none, none⟩]]

/-- Ranks construct a graph although only one of them accepts the greatest word as an id. -/
theorem exists_mixed_constructed : openOptions.OneApart closedOptions ∧ openOptions.check = true ∧
    closedOptions.check = true ∧
    ∃ run : Cluster.Run (Vector.ofFn fun rank : Fin 2 =>
        construct ((Crew.stable fun _ => none).members rank) (disputedEdges rank) []
          (![openOptions, closedOptions] rank)),
      ∀ rank, ∃ constructed, run.outcome rank = some (.ok constructed) := by
  refine ⟨.vertexCount (by decide), rfl, rfl, ?_⟩
  -- On these edges the rank with the greatest count does what it would do without one.
  have same : (fun rank : Fin 2 => construct ((Crew.stable fun _ => none).members rank)
      (disputedEdges rank) [] (![openOptions, closedOptions] rank)) = fun rank =>
        construct ((Crew.stable fun _ => none).members rank) (disputedEdges rank) [] openOptions := by
    funext rank
    cases rank using Fin.cases with
    | zero => rfl
    | succ rank =>
      obtain rfl : rank = 0 := Subsingleton.elim _ _
      have below : ∀ id ∈ endpoints (disputedEdges 1) ++ [], id < 0xffffffffffffffff :=
        List.forall_mem_cons.mpr ⟨by decide, List.forall_mem_singleton.mpr (by decide)⟩
      exact construct_greatest_count _ rfl rfl below
  rw [same]
  obtain ⟨run⟩ := Cluster.Run.exists_of_programs (Vector.ofFn fun rank : Fin 2 =>
    construct ((Crew.stable fun _ => none).members rank) (disputedEdges rank) [] openOptions)
  obtain ⟨constructed, ends⟩ := exists_constructed (Crew.stable fun _ => none) 0 (fun _ => rfl) rfl
    (fun _ keeps => absurd keeps (by decide)) (.of_few (Crew.stable fun _ => none).lawful (by decide)) run
    ⟨by decide, fun _ => by decide, fun _ someListed => absurd rfl someListed⟩
  exact ⟨run, fun rank => ⟨constructed rank, ends rank⟩⟩

end DistGraph.Construction
