import DistGraph.Proofs.Construction.InStep

/-! What all ranks come to together when they construct a graph, whatever fails on the way. -/

namespace DistGraph.Construction

open DistGraph.Numbering (Agreement)

variable {size : Nat} {members : Fin size → Member size} {premises : Premises members}
  {facts : Fin size → Prop} {options : Options} {edges : Fin size → List Edge}
  {vertices : Fin size → List VertexId}

/-- The comparison in the end is an exchange after which every rank decides by itself. -/
theorem compareSizes_eq (constructed : Constructed size) :
    (compareSizes constructed >>= fun _ => pure constructed : Program size Failure (Constructed size)) =
      .exchange (.gather Wire.word) (Vector.replicate size constructed.partition.vertexCount)
        (fun error => Failure.ofGraph (.comm error)) fun received =>
          .ofExcept (if allEqual received.toList then .ok constructed
            else .error (.diverged .vertexCount)) := by
  -- Deciding after the exchange is an outcome of what was received.
  have sized : compareSizes constructed =
      ((Communicator.allGather Wire.word constructed.partition.vertexCount).mapError Failure.ofGraph >>=
        fun counts => Program.ofExcept (if allEqual counts.toList then .ok ()
          else .error (.diverged .vertexCount))) := by
    refine bind_congr fun counts => ?_
    split <;> rfl
  rw [sized, bind_assoc]
  refine congrArg (Program.exchange _ _ _) (funext fun received => ?_)
  show (Program.ofExcept (if allEqual received.toList then .ok ()
    else .error (Failure.diverged .vertexCount)) >>= fun _ => pure constructed) = _
  split <;> rfl

/-- Ranks may confirm that their graphs have the same number of vertices, and all of them succeed if
they do so. -/
theorem confirm_leads {constructed : Fin size → Constructed size} {count : UInt64}
    (agree : ∀ rank, (constructed rank).partition.vertexCount = count) :
    Leads premises.blame facts
      (fun rank => confirm options (constructed rank) >>= fun _ => pure (constructed rank))
      fun outcomes => premises.blame.Pending facts constructed outcomes ∧
        (options.check = true → ∀ rank, outcomes rank = .ok (constructed rank)) := by
  unfold confirm
  cases together : options.check with
  | false =>
    exact (Leads.pure constructed).mono (fun _ fact => fact) fun _ held => ⟨held, by simp⟩
  | true =>
    simp only [if_true, compareSizes_eq, agree]
    refine Leads.exchange_ofExcept (fun _ _ error => ⟨error, rfl⟩) fun all => ?_
    -- Every rank compares equal numbers, one of every rank.
    have equal : ∀ rank : Fin size, allEqual ((Cluster.delivered (fun _ : Fin size =>
        (Vector.replicate size count : Vector (Call.gather Wire.word).Item size)) rank).toList : List UInt64) =
          true := by
      intro rank
      rw [Communicator.delivered_replicate]
      exact allEqual_ofFn count
    simp only [equal, if_true]
    exact ⟨⟨fun rank _ made => ⟨all rank, (Except.ok.inj made).symm⟩,
      .inl fun _ _ failing => nomatch failing⟩, fun _ _ => trivial⟩

section Whole

variable (members options edges vertices) in
/-- Whether ranks can count all that they exchange while they construct a graph. -/
structure Countable : Prop where
  /-- Ids can be compared, if that is asked for. -/
  compare : options.check = true → (∀ rank, ownVerdicts edges vertices options rank = .ok ()) →
    everything vertices ≠ [] → Compares members edges vertices
  /-- Records can move to the owners of given ids. -/
  given : options.renumber = false → (options.check = true → Accepted edges vertices options) →
    Bounded options (handedIn options edges) vertices → ∀ partition,
      Partition.even (vertexTotal options (handedIn options edges) vertices) size = .ok partition →
        CountableGiven members options (handedIn options edges) partition
  /-- Records can move to the owners of new ids. -/
  anew : options.renumber = true → (options.check = true → Accepted edges vertices options) →
    CountableAnew members options (handedIn options edges) vertices
  /-- All ranks lie in one memory, which is large enough to address all edges with their reverses. -/
  fits : (2 * (everything edges).length + (everything vertices).length) * HalfEdge.cellBytes ≤
    Memory.largestBuffer

variable (options edges) in
/-- All ranks together hand in no more records than they are given edges. -/
theorem length_everything_handedIn_le :
    (everything (handedIn options edges)).length ≤ (everything edges).length :=
  length_everything_mono (length_handedIn_le options edges)

/-- Ranks that are given few edges and list few vertices can count everything. -/
theorem Countable.of_few (lawful : ∀ rank, (members rank).sorter.Lawful)
    (few : 4 * (everything edges).length + (everything vertices).length ≤ Count.most) :
    Countable members options edges vertices := by
  -- Each record may come with a reverse, and each endpoint of both may be asked about.
  have kept := length_everything_handedIn_le options edges
  have asks : (everything (asked members edges)).length ≤ 2 * (everything edges).length :=
    length_everything_asked_le lawful
  have small : Count.most * HalfEdge.cellBytes ≤ Memory.largestBuffer := by decide
  refine ⟨fun _ _ _ => ⟨.of_few (by omega), .of_few (by omega)⟩, fun _ _ _ partition _ => ?_,
    fun _ _ => ?_, Nat.le_trans (Nat.mul_le_mul_right _ (by omega)) small⟩
  · exact CountableGiven.of_few lawful (by omega) partition
  · exact CountableAnew.of_few lawful (by omega)

/-- All edges with their reverses can be counted by a word. -/
theorem Countable.lt_word (countable : Countable members options edges vertices) :
    2 * (everything edges).length < UInt64.size := by
  have fits : (2 * (everything edges).length + _) * 64 ≤ 2 ^ 63 - 1 := countable.fits
  have word : UInt64.size = 2 ^ 64 := rfl
  omega

variable (premises options edges vertices) in
/-- Whether ranks may fail with what they find in their input. -/
structure Allows : Prop where
  /-- A rank that checks its input alone may reject it alone. -/
  rejected : options.check = false → ∀ rank fault,
    ownVerdicts edges vertices options rank = .error fault → premises.rejects rank fault
  /-- Ranks that check their input together reject it together. -/
  refused : options.check = true → ∀ rank fault, Refuses members edges vertices options rank fault →
    premises.refuses rank fault
  /-- A rank finds no number above the greatest word. -/
  tooLarge : options.renumber = false → options.vertexCount = none → ∀ rank,
    0xffffffffffffffff ∈ named (handedIn options edges rank) (vertices rank) →
      premises.rejects rank (.idTooLarge 0xffffffffffffffff)

variable (members options edges) in
/-- Whether what ranks keep belongs to one graph, whose records have been shared out among them. -/
structure OneGraph (partition : Partition size) (records : Fin size → List EdgeRecord)
    (constructed : Fin size → Constructed size) : Prop where
  /-- Every rank has a view of the records of its vertices. -/
  built : View.Built members records partition options.transposed options.segmentBudget
    fun rank => (constructed rank).view
  /-- There are no more records than edges and reverses. -/
  few : (everything records).length ≤ 2 * (everything edges).length
  /-- Every rank has the same partition, which its numbering goes by. -/
  shared : ∀ rank, (constructed rank).partition = partition ∧
    (constructed rank).numbering.partition = partition ∧ (constructed rank).numbering.rank = rank

variable (ranked : ∀ rank, (members rank).rank = rank)
  (lawful : ∀ rank, (members rank).sorter.Lawful) (someone : Fin size)
  (countable : premises.countable → Countable members options edges vertices)
  (allows : Allows premises options edges vertices)

include ranked lawful someone countable allows

/-- Ranks may build a graph of input that they accept. -/
theorem buildAccepted_leads (accepted : options.check = true → Accepted edges vertices options) :
    ∃ (constructed : Fin size → Constructed size) (kept : Fin size → Prop),
      (∃ count, ∀ rank, (constructed rank).partition.vertexCount = count) ∧
      ((∀ rank, kept rank) → ∃ partition records,
        OneGraph members options edges partition records constructed) ∧
      Leads premises.blame (Passed edges vertices options)
        (fun rank => build (members rank) (handedIn options edges rank) (vertices rank) options)
        (premises.blame.Pending kept constructed) := by
  have shorter := length_everything_handedIn_le options edges
  have fits : premises.countable →
      (2 * (everything (handedIn options edges)).length + (everything vertices).length) *
        HalfEdge.cellBytes ≤ Memory.largestBuffer := fun granted =>
    Nat.le_trans (Nat.mul_le_mul_right _ (by omega)) (countable granted).fits
  -- Either way what leads on is known already, and the views are those of one graph.
  unfold build
  cases renumbers : options.renumber with
  | true =>
    obtain ⟨agreement, views, kept, known, leads⟩ : ∃ (agreement : Agreement size)
        (views : Fin size → View size) (kept : Fin size → Prop), _ ∧
        Leads premises.blame (Passed edges vertices options) (fun rank => onNewIds (members rank)
          (handedIn options edges rank) (vertices rank) options) _ :=
      onNewIds_leads ranked lawful someone
        (fun granted => (countable granted).anew renumbers accepted) fits
    refine ⟨keptAnew agreement views, kept, ⟨agreement.partition.vertexCount, fun _ => rfl⟩,
      fun all => ?_, ?_⟩
    · -- On new ids the shares carry the agreement, which is one for all ranks.
      have few := length_everything_arrived_le members options (handedIn options edges) lawful agreement
      exact ⟨agreement.partition, _, (known all).2, by omega, fun rank => ⟨rfl, rfl, rfl⟩⟩
    · exact leads.mono (fun _ fact => fact) fun _ held => held.mono fun _ fact => fact.2
  | false =>
    obtain ⟨partition, views, kept, known, leads⟩ : ∃ (partition : Partition size)
        (views : Fin size → View size) (kept : Fin size → Prop), _ ∧
        Leads premises.blame (Passed edges vertices options) (fun rank => onGivenIds (members rank)
          (handedIn options edges rank) (vertices rank) options) _ :=
      onGivenIds_leads ranked lawful someone
        (fun rank fact limit given id member =>
          lt_of_checkOwn given fact.own id (named_subset options rank member))
        (allows.tooLarge renumbers)
        (fun granted => (countable granted).given renumbers accepted)
        fun granted => Nat.le_trans (Nat.mul_le_mul_right _ (Nat.le_add_right _ _)) (fits granted)
    refine ⟨fun rank => ⟨views rank, .identity partition rank, partition⟩, kept,
      ⟨partition.vertexCount, fun _ => rfl⟩, fun all => ?_, ?_⟩
    · -- On given ids they carry the partition that the number of vertices was shared out into.
      have few := length_everything_owned_le members options (handedIn options edges) lawful partition
      exact ⟨partition, _, known all, by omega, fun rank => ⟨rfl, rfl, rfl⟩⟩
    · exact leads.mono (fun _ fact => fact) fun _ held => held.mono fun _ fact => fact.2

/-- Ranks may build a graph once they have checked their input. -/
theorem build_leads : ∃ (constructed : Fin size → Constructed size) (kept : Fin size → Prop),
    (∃ count, ∀ rank, (constructed rank).partition.vertexCount = count) ∧
    ((∀ rank, kept rank) → ∃ partition records,
      OneGraph members options edges partition records constructed) ∧
    Leads premises.blame (Passed edges vertices options)
      (fun rank => build (members rank) (handedIn options edges rank) (vertices rank) options)
      (premises.blame.Pending kept constructed) := by
  by_cases accepted : options.check = true → Accepted edges vertices options
  · exact buildAccepted_leads ranked lawful someone countable allows accepted
  · -- No rank gets here, so it does not matter what they would keep.
    obtain ⟨partition, -, -⟩ := Partition.exists_even 0 (Nat.ne_of_gt someone.pos)
    let constructed : Fin size → Constructed size := fun rank =>
      ⟨⟨rank, partition, options.transposed, #[], none, 0⟩, .identity partition rank, partition⟩
    exact ⟨constructed, fun _ => False, ⟨partition.vertexCount, fun _ => rfl⟩,
      fun none_there => (none_there someone).elim,
      Leads.given (fun _ passed => passed.together) fun holds => absurd holds accepted⟩

/-- Ranks may construct a graph of any input, and if they check it together they succeed together. -/
theorem construct_leads : ∃ (constructed : Fin size → Constructed size) (kept : Fin size → Prop),
    ((∀ rank, kept rank) → ∃ partition records,
      OneGraph members options edges partition records constructed) ∧
    Leads premises.blame (fun _ => True)
      (fun rank => construct (members rank) (edges rank) (vertices rank) options)
      fun outcomes => premises.blame.Pending kept constructed outcomes ∧
        (options.check = true → ∀ rank, outcomes rank = .ok (constructed rank)) := by
  obtain ⟨constructed, kept, ⟨count, agree⟩, known, built⟩ :=
    build_leads ranked lawful someone countable allows
  refine ⟨constructed, kept, known, ?_⟩
  -- A record takes no more room than a cell.
  have stored : premises.roomy → ∀ rank,
      (edges rank).length * Wire.record.bytes ≤ Memory.largestBuffer := by
    intro roomy rank
    have share := length_le_everything edges rank
    refine Nat.le_trans (Nat.mul_le_mul ?_ Wire.record.bytes_le)
      (countable (premises.countable_of_roomy roomy)).fits
    omega
  simp only [construct_eq]
  exact (checkInput_leads lawful (fun granted => (countable granted).compare) allows.rejected
    allows.refused).after ((recordsOf_leads ranked stored).after
      ((built.mono (fun _ fact => fact.1) fun _ held => held).after (confirm_leads agree)))

end Whole

/-- Ranks without a limit that can count what they exchange construct a graph of input that passes all
checks, if kept ids leave room for a number of vertices above them. -/
theorem exists_constructed_of_accepted (crew : Crew size) (occupied : 0 < size)
    (free : ∀ rank, (crew.members rank).memory = none) (accepted : Accepted edges vertices options)
    (bounded : options.renumber = false → Bounded options (handedIn options edges) vertices)
    (countable : Countable crew.members options edges vertices)
    (run : Cluster.Run (Vector.ofFn fun rank =>
      construct (crew.members rank) (edges rank) (vertices rank) options)) :
    ∃ constructed : Fin size → Constructed size,
      ∀ rank, run.outcome rank = some (.ok (constructed rank)) := by
  -- Accepted input leaves nothing that a rank could reject.
  have allows : Allows (Premises.all free) options edges vertices := by
    refine ⟨fun _ rank fault refused => ?_, fun checks rank fault => ?_, fun keeps absent rank great => ?_⟩
    · exact nomatch (accepted.own rank).symm.trans refused
    · exact accepted.not_refuses crew.lawful checks rank fault
    · exact bounded keeps absent rank _ great rfl
  obtain ⟨constructed, kept, -, leads⟩ := construct_leads crew.ranked crew.lawful ⟨0, occupied⟩
    (fun _ => countable) allows
  exact ⟨constructed, fun rank =>
    (run.succeeds free (leads.mono (fun _ fact => fact) fun _ reached => reached.1) rank).2⟩

end DistGraph.Construction
