import DistGraph.Proofs.Cluster.Progress
import DistGraph.Proofs.Construction.Failing
import DistGraph.Proofs.Construction.Faults
import DistGraph.Proofs.Routing.Apart

/-! Ranks that check their input each by itself: those that reject it leave, and the others notice. -/

namespace DistGraph.Construction

open DistGraph.Routing (sendRecords_waits)

variable {size : Nat} {member : Member size} {edges : Fin size → List Edge} {rank : Fin size}
  {vertices : Fin size → List VertexId} {options : Options}

/-- Without checks between ranks a rank that accepts its input goes on to its records. -/
theorem construct_of_checkOwn (alone : options.check = false)
    (passed : checkOwn (edges rank) (vertices rank) options = .ok ()) :
    construct member (edges rank) (vertices rank) options =
      (Program.ofExcept (recordsOf member (edges rank) options) >>= fun records =>
        build member records (vertices rank) options >>= fun constructed =>
        confirm options constructed >>= fun _ => pure constructed) := by
  -- With nothing to settle between ranks the check is the rank's own.
  have accepts : checkInput member (edges rank) (vertices rank) options = .done () := by
    simp only [checkInput, alone, passed, Bool.false_eq_true, if_false]
    rfl
  rw [construct_eq, accepts]
  rfl

/-- A rank that accepts its input waits for the others as soon as it builds a graph: to agree with them on
the number of vertices, or to tell how many records they are sent. -/
theorem build_waits (member : Member size) (short : (handedIn options edges rank).length ≤ Count.most)
    (passed : checkOwn (edges rank) (vertices rank) options = .ok ())
    (bounded : options.renumber = false → options.vertexCount = none →
      ∀ id ∈ named (handedIn options edges rank) (vertices rank), id ≠ 0xffffffffffffffff) :
    ∃ call, (build member (handedIn options edges rank) (vertices rank) options).Waits call
      Failure.Broken := by
  unfold build
  cases renumbers : options.renumber with
  | true =>
    -- Records meet before they get new ids.
    have meets : (gatherParallel member options (.byHash options.transposed)
        (handedIn options edges rank)).Waits .counts Failure.Broken :=
      (sendRecords_waits short fun record _ => exists_meeting options rank record).bind _
    exact ⟨.counts, meets.bind _⟩
  | false =>
    simp only [Bool.false_eq_true, if_false, onGivenIds_eq]
    unfold countVertices
    cases given : options.vertexCount with
    | none =>
      -- If the number of vertices is not given, the ranks ask each other for the greatest id first.
      have counted := vertexBound_eq_ok_iff.mpr ⟨bounded renumbers given, rfl⟩
      exact ⟨.gather Wire.word, (Program.Waits.ofExcept counted
        (Communicator.fold_waits Wire.word Communicator.Reduction.max.combine _)).bind _⟩
    | some limit =>
      -- A number that is given is shared out without asking.
      obtain ⟨partition, even, count⟩ := Partition.exists_even limit (Nat.ne_of_gt rank.pos)
      have inside : ∀ id ∈ named (handedIn options edges rank) (vertices rank),
          id < partition.vertexCount := by
        intro id names
        rw [count]
        exact lt_of_checkOwn given passed id (named_subset options rank names)
      have meets : (gatherParallel member options (.byOwner partition options.transposed)
          (handedIn options edges rank)).Waits .counts Failure.Broken := by
        refine (sendRecords_waits short fun record held => ?_).bind _
        obtain ⟨src, dst⟩ : record.src ∈ named (handedIn options edges rank) (vertices rank) ∧
            record.dst ∈ named (handedIn options edges rank) (vertices rank) := ends_mem_named held
        exact exists_meeting_of_ends rank ⟨inside _ src, inside _ dst⟩
      exact ⟨.counts, .ofExcept (Failure.ofDefect_eq_ok_iff.mpr even) (meets.bind _)⟩

section Records

variable (ranked : member.rank = rank) (free : member.memory = none)
  (few : (edges rank).length ≤ Count.most)

include ranked free few

/-- A rank without a limit makes records of as many edges as it can count. -/
theorem recordsOf_of_unlimited :
    recordsOf member (edges rank) options = .ok (handedIn options edges rank) :=
  (recordsOf_eq_ok_iff options ranked).mpr
    ⟨(Member.holds_of_unlimited free few).makeRoom (Wire.bytes_le Wire.record) (Nat.le_refl _), rfl⟩

/-- A rank that finds a fault with what it is given leaves before it takes part in anything. -/
theorem exists_rejection (alone : options.check = false) {reason : InputFault}
    (found : OwnFault (edges rank) (vertices rank) options reason) :
    ∃ fault, OwnFault (edges rank) (vertices rank) options fault ∧
      construct member (edges rank) (vertices rank) options = .fail (.rejected fault) := by
  cases passed : checkOwn (edges rank) (vertices rank) options with
  | error fault =>
    refine ⟨fault, ownFault_of_checkOwn passed, ?_⟩
    have rejects : checkInput member (edges rank) (vertices rank) options = .fail (.rejected fault) := by
      simp only [checkInput, alone, passed, Bool.false_eq_true, if_false]
      rfl
    rw [construct_eq, rejects]
    rfl
  | ok =>
    -- Only a number of vertices above the greatest word is missed after these checks.
    obtain ⟨keeps, absent, great⟩ : options.renumber = false ∧ options.vertexCount = none ∧
        0xffffffffffffffff ∈ Reference.vertices options (edges rank) (vertices rank) := by
      by_contra bounded
      exact not_ownFault_of_checkOwn passed
        (fun keeps absent great => bounded ⟨keeps, absent, great⟩) found
    refine ⟨_, .tooLarge keeps absent great, ?_⟩
    cases counted : vertexBound (handedIn options edges rank) (vertices rank) with
    | ok bound =>
      exact absurd rfl ((vertexBound_eq_ok_iff.mp counted).1 _ (mem_named_handedIn_iff.mpr great))
    | error error =>
      obtain ⟨-, rfl⟩ := vertexBound_eq_error counted
      have fails : build member (handedIn options edges rank) (vertices rank) options =
          .fail (.rejected (.idTooLarge 0xffffffffffffffff)) := by
        simp only [build, keeps, Bool.false_eq_true, if_false, onGivenIds_eq, countVertices, absent,
          counted]
        rfl
      rw [construct_of_checkOwn alone passed, recordsOf_of_unlimited ranked free few]
      simp only [Program.ofExcept, Program.bind_eq, Program.bind, fails]

/-- A rank that finds no fault with what it is given waits for the others. -/
theorem construct_waits (alone : options.check = false)
    (fine : ∀ fault, ¬ OwnFault (edges rank) (vertices rank) options fault) :
    ∃ call, (construct member (edges rank) (vertices rank) options).Waits call Failure.Broken := by
  -- A rank without a fault passes its checks and gets its buffers, which leads it to an exchange.
  have passed : checkOwn (edges rank) (vertices rank) options = .ok () := by
    cases checked : checkOwn (edges rank) (vertices rank) options with
    | ok => rfl
    | error fault => exact absurd (ownFault_of_checkOwn checked) (fine fault)
  have bounded : options.renumber = false → options.vertexCount = none →
      ∀ id ∈ named (handedIn options edges rank) (vertices rank), id ≠ 0xffffffffffffffff := by
    rintro keeps absent id held rfl
    exact fine _ (.tooLarge keeps absent (mem_named_handedIn_iff.mp held))
  have short : (handedIn options edges rank).length ≤ Count.most :=
    Nat.le_trans (length_handedIn_le options edges rank) few
  obtain ⟨call, waits⟩ := build_waits member short passed bounded
  rw [construct_of_checkOwn alone passed]
  exact ⟨call, .ofExcept (recordsOf_of_unlimited ranked free few) (waits.bind _)⟩

end Records

/-- What ranks that check their input each by itself may fail with: those that find a fault with it tell
that fault, and the others tell that the ranks did not take part alike. -/
def judged (edges : Fin size → List Edge) (vertices : Fin size → List VertexId) (options : Options) :
    Blame size Failure where
  own rank failure := ∃ fault, OwnFault (edges rank) (vertices rank) options fault ∧
    failure = .rejected fault
  shared _ _ := False
  peers rank failure := (∀ fault, ¬ OwnFault (edges rank) (vertices rank) options fault) ∧ failure.Broken

section Crews

variable (crew : Crew size) (free : ∀ rank, (crew.members rank).memory = none)
  (vertices : Fin size → List VertexId) (alone : options.check = false)
  (few : ∀ rank, (edges rank).length ≤ Count.most)

include free alone few

/-- A rank has left with a fault of its input or has none. -/
theorem exists_start (rank : Fin size) : ∃ start : Except Failure Unit,
    (∀ failure, start = .error failure →
      construct (crew.members rank) (edges rank) (vertices rank) options = .fail failure ∧
      (judged edges vertices options).own rank failure) ∧
    (start = .ok () → ∀ fault, ¬ OwnFault (edges rank) (vertices rank) options fault) := by
  -- A rank with a fault stops before it communicates.
  by_cases faulty : ∃ fault, OwnFault (edges rank) (vertices rank) options fault
  · obtain ⟨reason, found⟩ := faulty
    obtain ⟨fault, here, fails⟩ := exists_rejection (crew.ranked rank) (free rank) (few rank) alone found
    refine ⟨.error (.rejected fault), fun failure same => ?_, nofun⟩
    cases same
    exact ⟨fails, fault, here, rfl⟩
  · exact ⟨.ok (), nofun, fun _ => not_exists.mp faulty⟩

/-- If some rank has left, the others never get further than to their first exchange. -/
theorem construct_halts (found : ∃ rank fault, OwnFault (edges rank) (vertices rank) options fault) :
    InStep (judged edges vertices options) (fun _ => False) fun rank =>
      construct (crew.members rank) (edges rank) (vertices rank) options := by
  -- Those that left have told their faults, and the others wait at an exchange that never completes.
  choose start fails waits using exists_start crew free vertices alone few
  obtain ⟨culprit, reason, faulty⟩ := found
  refine .halts (.inl fun rank failure failed => (fails rank failure failed).2) ⟨culprit, ?_⟩
    (fun rank failure failed => (fails rank failure failed).1) fun rank passed => ?_
  · cases passed : start culprit with
    | error failure => exact ⟨failure, rfl⟩
    | ok => exact absurd faulty (waits culprit passed reason)
  · have fine := waits rank passed
    obtain ⟨call, sent, fault, next, stands, told⟩ :=
      construct_waits (crew.ranked rank) (free rank) (few rank) alone fine
    exact ⟨call, sent, fault, next, stands, fun error => ⟨fine, told error⟩⟩

end Crews

/-- If some ranks without a limit that check their input each by itself find a fault with it, exactly
these reject it, and the others tell that the ranks did not take part alike. No rank waits forever. -/
theorem construct_rejects_apart (crew : Crew size)
    (free : ∀ rank, (crew.members rank).memory = none) (edges : Fin size → List Edge)
    (vertices : Fin size → List VertexId) (options : Options) (alone : options.check = false)
    (few : ∀ rank, (edges rank).length ≤ Count.most)
    (found : ∃ rank fault, OwnFault (edges rank) (vertices rank) options fault) :
    Cluster.Terminates (Vector.ofFn fun rank =>
      construct (crew.members rank) (edges rank) (vertices rank) options) ∧
    ∀ (run : Cluster.Run (Vector.ofFn fun rank =>
        construct (crew.members rank) (edges rank) (vertices rank) options)) (rank : Fin size),
      ((∃ fault, OwnFault (edges rank) (vertices rank) options fault) →
        ∃ fault, OwnFault (edges rank) (vertices rank) options fault ∧
          run.outcome rank = some (.error (.rejected fault))) ∧
      ((∀ fault, ¬ OwnFault (edges rank) (vertices rank) options fault) →
        ∃ cause, run.outcome rank = some (.error (.graph (.protocolBroken cause)))) := by
  refine ⟨Cluster.terminates _, fun run => ?_⟩
  obtain ⟨outcomes, ends, nothing | stopped⟩ :=
    run.exists_outcomes (construct_halts crew free vertices alone few found)
  · exact nothing.elim
  -- No rank gets further, so each has its own fault or is told of another's.
  rcases stopped with ⟨-, each⟩ | each
  · intro rank
    obtain ⟨failure, failed, ⟨fault, faulty, rfl⟩ | ⟨fine, cause, rfl⟩⟩ := each rank
    · exact ⟨fun _ => ⟨fault, faulty, by rw [ends, failed]⟩, fun fine => absurd faulty (fine fault)⟩
    · exact ⟨fun ⟨fault, faulty⟩ => absurd faulty (fine fault), fun _ => ⟨cause, by rw [ends, failed]⟩⟩
  · obtain ⟨rank, -⟩ := found
    obtain ⟨_, -, ⟨⟩⟩ := each rank

/-- Of two ranks that are to keep their ids, one has an edge at the greatest word and rejects it, and the
other one, which has no edges, notices. -/
theorem construct_rejects_apart_sample :
    ∃ run : Cluster.Run (Vector.ofFn fun rank : Fin 2 =>
        construct ((Crew.stable fun _ => none).members rank) (greatEdges rank) [] { renumber := false }),
      run.outcome 0 = some (.error (.rejected (.idTooLarge 0xffffffffffffffff))) ∧
      ∃ cause, run.outcome 1 = some (.error (.graph (.protocolBroken cause))) := by
  obtain ⟨run⟩ := Cluster.Run.exists_of_programs (Vector.ofFn fun rank : Fin 2 =>
    construct ((Crew.stable fun _ => none).members rank) (greatEdges rank) [] { renumber := false })
  -- The greatest word is an endpoint on the first rank, and the second one has no edges.
  have found : OwnFault (greatEdges 0) [] { renumber := false } (.idTooLarge 0xffffffffffffffff) :=
    .tooLarge rfl rfl (by decide)
  obtain ⟨-, ends⟩ := construct_rejects_apart (Crew.stable fun _ => none) (fun _ => rfl) greatEdges
    (fun _ => []) { renumber := false } rfl (by decide) ⟨0, _, found⟩
  refine ⟨run, ?_, (ends run 1).2 fun fault faulty => ?_⟩
  · obtain ⟨fault, faulty, ended⟩ := (ends run 0).1 ⟨_, found⟩
    rw [ended]
    cases faulty with
    | weight held given =>
      obtain rfl := List.mem_singleton.mp held
      cases given
    | outside given => cases given
    | tooLarge => rfl
  · cases faulty with
    | weight held => cases held
    | outside given => cases given
    | tooLarge _ _ held => revert held; decide

end DistGraph.Construction
