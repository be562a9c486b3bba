import Mathlib.Data.Fin.VecNotation
import DistGraph.Proofs.Construction.Checks
import DistGraph.Proofs.Construction.Gathering

/-! The steps with which every construction starts and ends. -/

namespace DistGraph

/-- Ranks in their places that keep to the laws of sorting. -/
structure Crew (size : Nat) where
  /-- The ranks. -/
  members : Fin size → Member size
  /-- Every rank is in its place. -/
  ranked : ∀ rank, (members rank).rank = rank
  /-- Every rank sorts as it should, whatever it does with entries that compare alike. -/
  lawful : ∀ rank, (members rank).sorter.Lawful

/-- The ranks that leave entries that compare alike as they were. -/
def Crew.stable {size : Nat} (memory : Fin size → Option UInt64) : Crew size where
  members rank := { rank, memory := memory rank }
  ranked _ := rfl
  lawful _ := Sorter.stable_lawful

/-- The ranks of a crew when each of them sorts back to front. -/
def Crew.backwards {size : Nat} (crew : Crew size) : Crew size where
  members rank := { crew.members rank with sorter := (crew.members rank).sorter.backwards }
  ranked := crew.ranked
  lawful rank := (crew.lawful rank).backwards

/-- Ranks without a limit can hold all that they can count. -/
theorem Crew.stable_holds {size number : Nat} (few : number ≤ Count.most) (rank : Fin size) :
    ((Crew.stable fun _ => none).members rank).Holds number :=
  Member.holds_of_unlimited rfl few

namespace Construction

variable {size : Nat} {edges : Fin size → List Edge} {vertices : Fin size → List VertexId}
  {members : Fin size → Member size}

/-- The step of a construction that depends on whether vertices get new ids. -/
def build (self : Member size) (records : List EdgeRecord) (vertices : List VertexId)
    (options : Options) : Program size Failure (Constructed size) :=
  if options.renumber then onNewIds self records vertices options
  else onGivenIds self records vertices options

/-- What a construction checks in the end, if it is asked to. -/
def confirm (options : Options) (constructed : Constructed size) : Program size Failure Unit :=
  if options.check then compareSizes constructed else pure ()

/-- A construction checks its input, makes records, builds and confirms. -/
theorem construct_eq (self : Member size) (edges : List Edge) (vertices : List VertexId)
    (options : Options) : construct self edges vertices options =
      (checkInput self edges vertices options >>= fun _ =>
        Program.ofExcept (recordsOf self edges options) >>= fun records =>
        build self records vertices options >>= fun constructed =>
        confirm options constructed >>= fun _ => pure constructed) := by
  unfold construct build confirm
  cases options.renumber <;> cases options.check <;> rfl

/-- Ranks whose graphs have the same number of vertices find no difference. -/
theorem confirm_computes (options : Options) {constructed : Fin size → Constructed size}
    {count : UInt64} (agree : ∀ rank, (constructed rank).partition.vertexCount = count) :
    Computes (fun rank => confirm options (constructed rank)) (· = fun _ => ()) := by
  unfold confirm
  -- Without the check there is nothing to compare.
  cases options.check with
  | false => exact Computes.pure fun _ => ()
  | true =>
    refine (Communicator.allGather_computes Wire.word fun rank =>
      (constructed rank).partition.vertexCount).mapError.after ?_
    simp only [agree, allEqual_ofFn, if_true]
    exact (Computes.pure fun _ => ()).congr fun _ => iff_of_true rfl trivial

/-- Whether ranks get from what they are given to records of their edges. -/
structure Admitted (members : Fin size → Member size) (edges : Fin size → List Edge)
    (vertices : Fin size → List VertexId) (options : Options) : Prop where
  /-- What they are given is accepted. -/
  accepted : Accepted edges vertices options
  /-- What has to be compared can be carried. -/
  comparable : options.check = true → everything vertices ≠ [] → Comparable members edges vertices
  /-- There are buffers for the records. -/
  recorded : ∀ rank, (members rank).makeRoom Wire.record.bytes (edges rank).length = .ok ()

/-- Ranks that are admitted construct what they build of their records. -/
theorem construct_computes (options : Options) (ranked : ∀ rank, (members rank).rank = rank)
    (lawful : ∀ rank, (members rank).sorter.Lawful) {describes : (Fin size → Constructed size) → Prop}
    (built : Computes (fun rank => build (members rank) (handedIn options edges rank) (vertices rank)
      options) describes)
    (agree : ∀ results, describes results →
      ∃ count, ∀ rank, (results rank).partition.vertexCount = count) :
    Computes (fun rank => construct (members rank) (edges rank) (vertices rank) options)
      fun results => Admitted members edges vertices options ∧ describes results := by
  simp only [construct_eq]
  -- What has been built is confirmed and given out unchanged.
  have ended : ∀ results, describes results → Computes (fun rank =>
      confirm options (results rank) >>= fun _ => pure (results rank)) (· = results) := by
    intro results described
    obtain ⟨count, same⟩ := agree results described
    exact (confirm_computes options same).after (Computes.pure results)
  refine Computes.congr ((checkInput_computes options lawful).afterIf _ fun _ =>
    (recordsOf_computes options ranked).afterIf _ fun _ =>
      Computes.bind (fun known results => results = known) built ended) fun results => ?_
  constructor
  · rintro ⟨⟨accepted, comparable⟩, recorded, known, described, rfl⟩
    exact ⟨⟨accepted, comparable, recorded⟩, described⟩
  · intro ⟨admitted, described⟩
    exact ⟨⟨admitted.accepted, admitted.comparable⟩, admitted.recorded, results, described, rfl⟩

/-- What is accepted is admitted to ranks that can hold all vertices and all endpoints. -/
theorem Accepted.admitted {options : Options} {number : Nat}
    (accepted : Accepted edges vertices options) (lawful : ∀ rank, (members rank).sorter.Lawful)
    (many : 2 * (everything edges).length + (everything vertices).length ≤ number)
    (holds : ∀ rank, (members rank).Holds number) : Admitted members edges vertices options := by
  -- Every vertex and every endpoint has a home rank, which can hold all of them.
  have home : ∀ {ids : Fin size → List VertexId}, ∀ id ∈ everything ids,
      ∃ rank : Fin size, Numbering.assigner size id = .ok rank.val :=
    fun id member => exists_home_of_mem member id
  refine ⟨accepted, fun _ _ => ⟨?_, ?_⟩, fun rank => ?_⟩
  · exact Routing.Deliverable.of_holds home (by omega) holds
  · apply Routing.Deliverable.of_holds home _ holds
    have fewer : (everything (asked members edges)).length ≤ 2 * (everything edges).length :=
      length_everything_asked_le lawful
    omega
  · have share := length_le_everything edges rank
    exact (holds rank).makeRoom Wire.record.bytes_le (by omega)

/-- A self-loop and three edges on two ranks, two of them parallel. -/
def sampleEdges : Fin 2 → List Edge :=
  ![[⟨2, 1, none, none, none⟩, ⟨0, 0, none, none, none⟩],
    [⟨0, 1, none, some 7, none⟩, ⟨2, 1, none, some 8, none⟩]]

/-- Options that ask for every step of the cleanup. -/
def sampleOptions : Options where
  addReverses := true
  mergePolicy := .keepFirst
  renumber := false
  check := true
  dropSelfLoops := true

/-- The sample edges are accepted with the sample options. -/
theorem sample_accepted : Accepted sampleEdges (fun _ => []) sampleOptions :=
  ⟨by decide, fun _ => List.nodup_nil, fun _ listed => absurd rfl listed⟩

/-- The weight one. -/
def one : Weight := ⟨0x3ff0000000000000⟩

/-- The weight two. -/
def two : Weight := ⟨0x4000000000000000⟩

/-- The weight one half. -/
def half : Weight := ⟨0x3fe0000000000000⟩

/-- Four parallel edges on two ranks of which one has no weight, a self-loop, and two parallel edges without
any weight. -/
def weightedEdges : Fin 2 → List Edge :=
  ![[⟨0, 1, some one, some 7, none⟩, ⟨1, 1, some two, none, none⟩, ⟨0, 1, none, some 8, none⟩],
    [⟨0, 1, some two, none, none⟩, ⟨1, 2, none, some 9, none⟩, ⟨0, 1, some half, none, none⟩,
      ⟨1, 2, none, none, none⟩]]

/-- Options that ask for every step of the cleanup, and for weights to be added up. -/
def summing : Options := { sampleOptions with mergePolicy := .sum }

/-- The weights of the parallel edges are added up from the first one on, and stay absent where there are
none. -/
theorem processed_weightedEdges : Reference.processed summing (everything weightedEdges) =
    let total := (one.add two).add half
    [⟨⟨0, 1, some total, some 7, none⟩, 0⟩, ⟨⟨1, 2, none, some 9, none⟩, 4⟩,
      ⟨⟨1, 0, some total, some 7, none⟩, 0⟩, ⟨⟨2, 1, none, some 9, none⟩, 4⟩] := rfl

/-- The weighted edges are accepted where parallel ones are summed. -/
theorem weighted_accepted : Accepted weightedEdges (fun _ => []) summing :=
  ⟨by decide, fun _ => List.nodup_nil, fun _ listed => absurd rfl listed⟩

end Construction

end DistGraph
