import DistGraph.Proofs.Construction.Ties
import DistGraph.Proofs.Routing.Limits

/-! Memory limits keep ranks from constructing a graph, but never from constructing the same one. -/

namespace DistGraph

variable {size : Nat}

section Steps

variable {self : Member size} {memory : Option UInt64} (within : Memory.Within self.memory memory)

include within

namespace Segment

/-- A segment is the same until there is no buffer for its edges. -/
theorem build_curbed (transposed : Bool) (vertices : Span) (records : List EdgeRecord) :
    (Program.ofExcept (build self transposed vertices records) : Program size Failure Segment).Curbed
      (.ofExcept (build { self with memory := memory } transposed vertices records)) := by
  unfold build
  simp only [Program.ofExcept_bind]
  exact (Member.makeRoom_curbed within _ _).bind fun _ => .ofExcept _

/-- Segments are built alike until there is no buffer for one of them. -/
theorem buildAll_curbed (budget : Option UInt64) (transposed : Bool) (vertices : Span)
    (records : List EdgeRecord) :
    (Program.ofExcept (buildAll self budget transposed vertices records) :
      Program size Failure (List Segment)).Curbed
      (.ofExcept (buildAll { self with memory := memory } budget transposed vertices records)) := by
  unfold buildAll
  refine Program.Trails.mapM (fun piece => ?_) _
  exact build_curbed within transposed piece.1 piece.2

end Segment

/-- Views are the same until there is no buffer for one of their segments. -/
theorem View.build_curbed (records : List EdgeRecord) (partition : Partition size) (transposed : Bool)
    (budget : Option UInt64) : (build self records partition transposed budget).Curbed
      (build { self with memory := memory } records partition transposed budget) := by
  rw [build_eq rfl, build_eq rfl]
  -- Records are sorted and counted without a buffer, so only their segments can lack one.
  refine (Program.Trails.ofExcept _).bind fun _ => ?_
  refine (Communicator.fold_plain Wire.word _ _).curbed.bind fun total => ?_
  exact (Segment.buildAll_curbed within budget transposed _ _).bind fun segments => .pure _

namespace Numbering

/-- Ranks name their vertices alike until there is no buffer for the entries. -/
theorem named_curbed (records : List EdgeRecord) (vertices : List VertexId) (transposed : Bool) :
    (Program.ofExcept (Degrees.named self records vertices transposed) :
      Program size Failure (List DegreeShare)).Curbed
      (.ofExcept (Degrees.named { self with memory := memory } records vertices transposed)) := by
  unfold Degrees.named
  simp only [Program.ofExcept_bind]
  exact (Member.makeRoom_curbed within _ _).bind fun _ => .ofExcept _

/-- Vertices get the same new ids until there is no buffer for what is asked or answered. -/
theorem assign_curbed (records : List EdgeRecord) (vertices : List VertexId) (order : IdOrder)
    (transposed : Bool) : (assign self records vertices order transposed).Curbed
      (assign { self with memory := memory } records vertices order transposed) := by
  refine (named_curbed within records vertices transposed).bind fun named => ?_
  -- Degrees need a buffer where they are sent, and so do questions for ids and the answers to them.
  have gathers : (gatherOwned self order named).Curbed
      (gatherOwned { self with memory := memory } order named) :=
    (Routing.send_curbed within Wire.degree _ named).bind fun received =>
      (Program.Trails.ofExcept _).bind fun owned => .pure _
  refine gathers.bind fun owned => ?_
  have numbers : (number self owned).Curbed (number { self with memory := memory } owned) :=
    (Communicator.allGather_plain Wire.word _).curbed.bind fun counts =>
      (Program.Trails.ofExcept _).bind fun partition => .ofExcept _
  refine numbers.bind fun numbering => ?_
  have resolves : (resolve self numbering (named.map DegreeShare.vertex)).Curbed
      (resolve { self with memory := memory } numbering (named.map DegreeShare.vertex)) :=
    (Program.Trails.ofExcept _).bind fun requested =>
      (Routing.sendGroups_curbed within Wire.vertex requested).bind fun requests =>
        (Program.Trails.ofExcept _).bind fun found =>
          (Routing.sendBack_curbed within Wire.word _ _).bind fun ids => .pure _
  exact resolves.bind fun table => (Program.Trails.ofExcept _).bind fun relabelled => .pure _

end Numbering

namespace Construction

variable (edges : List Edge) (records : List EdgeRecord) (vertices : List VertexId) (options : Options)

omit within in
/-- Ranks settle their verdicts without any memory. -/
theorem settle_curbed (verdict : Verdict) :
    (settle verdict : Program size Failure Unit).Curbed (settle verdict) := by
  refine (Communicator.allGather_plain Wire.byte _).curbed.bind fun flags => ?_
  -- Marks are gathered by all ranks, and each stops by what it finds there.
  cases verdict with
  | error fault => exact .fail _
  | ok =>
    dsimp only
    split
    · exact .fail _
    · exact .done ()

/-- Input is checked alike until there is no buffer for the lists. -/
theorem checkInput_curbed : (checkInput self edges vertices options).Curbed
    (checkInput { self with memory := memory } edges vertices options) := by
  have lists : (checkList self edges vertices).Curbed
      (checkList { self with memory := memory } edges vertices) := by
    refine (Communicator.fold_plain Wire.word _ _).curbed.bind fun any => ?_
    split
    · exact .pure _
    · exact (Routing.send_curbed within Wire.vertex _ vertices).bind fun named =>
        (Routing.send_curbed within Wire.vertex _ _).bind fun used => .pure _
  have compares : (compareOptions options : Program size Failure Unit).Curbed (compareOptions options) := by
    refine (Communicator.allGather_plain Wire.word _).curbed.bind fun fingerprints => ?_
    split
    · exact .done ()
    · exact .fail _
  -- Memory is asked for only where lists are sent.
  unfold checkInput
  cases options.check with
  | false => exact .ofExcept _
  | true =>
    exact compares.bind fun _ => (settle_curbed _).bind fun _ =>
      lists.bind fun verdict => settle_curbed verdict

/-- Records are made alike until there is no buffer for them. -/
theorem recordsOf_curbed :
    (Program.ofExcept (recordsOf self edges options) : Program size Failure (List EdgeRecord)).Curbed
      (.ofExcept (recordsOf { self with memory := memory } edges options)) := by
  unfold recordsOf
  simp only [Program.ofExcept_bind]
  exact (Member.makeRoom_curbed within _ _).bind fun _ => .ofExcept _

/-- Records meet alike until there is no buffer for what is received. -/
theorem gatherParallel_curbed (otherwise : Placement) :
    (gatherParallel self options otherwise records).Curbed
      (gatherParallel { self with memory := memory } options otherwise records) :=
  (Routing.sendRecords_curbed within _ records).bind fun _ => .pure _

/-- A graph is built on new ids alike until there is no buffer for one of the steps. -/
theorem onNewIds_curbed : (onNewIds self records vertices options).Curbed
    (onNewIds { self with memory := memory } records vertices options) := by
  -- Step by step, as each asks for its own buffers.
  refine (gatherParallel_curbed within records options _).bind fun clean => ?_
  refine (Numbering.assign_curbed within clean vertices _ _).bind fun assigned => ?_
  refine (Routing.sendRecords_curbed within _ _).bind fun placed => ?_
  exact (View.build_curbed within placed _ _ _).bind fun view => .pure _

/-- A graph is built on given ids alike until there is no buffer for one of the steps. -/
theorem onGivenIds_curbed : (onGivenIds self records vertices options).Curbed
    (onGivenIds { self with memory := memory } records vertices options) := by
  have counts : (countVertices records vertices options : Program size Failure UInt64).Curbed
      (countVertices records vertices options) := by
    unfold countVertices
    cases options.vertexCount with
    | some count => exact .pure count
    | none =>
      exact (Program.Trails.ofExcept _).bind fun bound => (Communicator.fold_plain Wire.word _ bound).curbed
  rw [onGivenIds_eq, onGivenIds_eq]
  -- Clean records only move once more if reverses were added to them.
  refine counts.bind fun count => (Program.Trails.ofExcept _).bind fun partition => ?_
  refine (gatherParallel_curbed within records options _).bind fun clean => ?_
  have moves : (moveOn options partition self clean).Curbed
      (moveOn options partition { self with memory := memory } clean) := by
    unfold moveOn
    split
    · exact Routing.sendRecords_curbed within _ clean
    · exact .pure clean
  exact moves.bind fun placed => (View.build_curbed within placed _ _ _).bind fun view => .pure _

/-- A rank constructs its share of the same graph until it runs out of memory. -/
theorem construct_curbed : (construct self edges vertices options).Curbed
    (construct { self with memory := memory } edges vertices options) := by
  -- Building asks for memory in either way, and confirming never does.
  have builds : ∀ records, (build self records vertices options).Curbed
      (build { self with memory := memory } records vertices options) := by
    intro records
    unfold build
    split
    · exact onNewIds_curbed within records vertices options
    · exact onGivenIds_curbed within records vertices options
  have confirms : ∀ constructed : Constructed size,
      (confirm options constructed).Curbed (confirm options constructed) := by
    intro constructed
    unfold confirm compareSizes
    split
    · refine (Communicator.allGather_plain Wire.word _).curbed.bind fun counts => ?_
      split
      · exact .done ()
      · exact .fail _
    · exact .pure ()
  rw [construct_eq, construct_eq]
  -- Each step goes on from what the step before it has come to.
  exact (checkInput_curbed within edges vertices options).bind fun _ =>
    (recordsOf_curbed within edges options).bind fun records => (builds records).bind fun constructed =>
      (confirms constructed).bind fun _ => .pure constructed

end Construction

end Steps

/-- The ranks of a crew when they have other limits of memory. -/
def Crew.limited (crew : Crew size) (memory : Fin size → Option UInt64) : Crew size where
  members rank := { crew.members rank with memory := memory rank }
  ranked := crew.ranked
  lawful := crew.lawful

namespace Construction

/-- Ranks construct the same as others with the same memory, in particular if these sort alike. -/
theorem together_iff_of_memory (crew other : Crew size)
    (sorts : size ≤ UInt32.size ∨ ∀ rank, (other.members rank).sorter = (crew.members rank).sorter)
    (memory : ∀ rank, (other.members rank).memory = (crew.members rank).memory)
    (edges : Fin size → List Edge) (vertices : Fin size → List VertexId) (options : Options)
    (constructed : Fin size → Constructed size) :
    Together (fun rank => construct (crew.members rank) (edges rank) (vertices rank) options) constructed ↔
      Together (fun rank => construct (other.members rank) (edges rank) (vertices rank) options)
        constructed := by
  rcases Nat.eq_zero_or_pos size with none_there | occupied
  · subst none_there
    exact iff_of_true (.done fun rank => rank.elim0) (.done fun rank => rank.elim0)
  rcases sorts with ranks | sorts
  · -- Ranks that can be told apart in their records leave nothing to how they are sorted.
    have alike := (runAlike_of_follows crew other occupied ranks memory edges vertices options fun rank =>
      (crew.lawful rank).follows (other.lawful rank)).1
    simp only [constructBy_sorting] at alike
    exact alike.together_iff
  · have twin : ∀ rank, other.members rank = crew.members rank := by
      intro rank
      rw [Member.eq_resorted ((other.ranked rank).trans (crew.ranked rank).symm) (memory rank), sorts rank]
    simp only [twin]

/-- Memory limits never change a graph, they only keep ranks from constructing it.

Ranks either sort in the same way or are few enough for records to tell them apart. Whatever they construct
together is then constructed as well by ranks that have no less memory. And when these construct a graph,
ranks with less memory construct the same one, unless some of them run out of memory. Even so no rank comes
to anything else, and those that do not construct their share have run out of memory themselves or were
left by others that had. -/
theorem construct_limited (crew other : Crew size)
    (sorts : size ≤ UInt32.size ∨ ∀ rank, (other.members rank).sorter = (crew.members rank).sorter)
    (within : ∀ rank, Memory.Within (crew.members rank).memory (other.members rank).memory)
    (edges : Fin size → List Edge) (vertices : Fin size → List VertexId) (options : Options)
    (run : Cluster.Run (Vector.ofFn fun rank =>
      construct (crew.members rank) (edges rank) (vertices rank) options))
    (otherRun : Cluster.Run (Vector.ofFn fun rank =>
      construct (other.members rank) (edges rank) (vertices rank) options))
    (constructed : Fin size → Constructed size) :
    ((∀ rank, run.outcome rank = some (.ok (constructed rank))) →
      ∀ rank, otherRun.outcome rank = some (.ok (constructed rank))) ∧
    ((∀ rank, otherRun.outcome rank = some (.ok (constructed rank))) →
      (∀ rank, run.outcome rank = some (.ok (constructed rank)) ∨
        ∃ failure, run.outcome rank = some (.error failure) ∧ (failure.Short ∨ failure.Broken)) ∧
      ((∃ rank, run.outcome rank ≠ some (.ok (constructed rank))) →
        ∃ rank failure, run.outcome rank = some (.error failure) ∧ failure.Short)) := by
  -- Between the two crews stands one that sorts like the first and has the memory of the second.
  let roomy := crew.limited fun rank => (other.members rank).memory
  have same : Together (fun rank => construct (roomy.members rank) (edges rank) (vertices rank) options)
      constructed ↔ _ :=
    together_iff_of_memory roomy other sorts (fun _ => rfl) edges vertices options constructed
  have trails : ∀ rank, (construct (crew.members rank) (edges rank) (vertices rank) options).Curbed
      (construct (roomy.members rank) (edges rank) (vertices rank) options) := fun rank =>
    construct_curbed (within rank) (edges rank) (vertices rank) options
  rw [otherRun.together_iff, run.together_iff, ← same]
  exact ⟨fun together => together.of_trails trails, fun together => run.outcomes_of_trails trails together⟩

/-- A rank without any memory keeps its peer from constructing a graph, by running out of memory. -/
theorem construct_limited_sample :
    let crew : Crew 2 := Crew.stable ![none, some 0]
    let other : Crew 2 := Crew.stable fun _ => none
    ∃ (run : Cluster.Run (Vector.ofFn fun rank : Fin 2 =>
        construct (crew.members rank) (sampleEdges rank) [] sampleOptions))
      (otherRun : Cluster.Run (Vector.ofFn fun rank : Fin 2 =>
        construct (other.members rank) (sampleEdges rank) [] sampleOptions))
      (constructed : Fin 2 → Constructed 2),
      (∀ rank, otherRun.outcome rank = some (.ok (constructed rank))) ∧
      ∃ rank failure, run.outcome rank = some (.error failure) ∧ failure.Short := by
  intro crew other
  obtain ⟨run⟩ := Cluster.Run.exists_of_programs (Vector.ofFn fun rank : Fin 2 =>
    construct (crew.members rank) (sampleEdges rank) [] sampleOptions)
  obtain ⟨otherRun⟩ := Cluster.Run.exists_of_programs (Vector.ofFn fun rank : Fin 2 =>
    construct (other.members rank) (sampleEdges rank) [] sampleOptions)
  obtain ⟨constructed, ends⟩ := exists_sample_constructed other (fun _ => rfl) otherRun
  have within : ∀ rank, Memory.Within (crew.members rank).memory (other.members rank).memory :=
    fun _ _ given => nomatch given
  refine ⟨run, otherRun, constructed, ends, ((construct_limited crew other (.inl (by decide)) within
    sampleEdges (fun _ => []) sampleOptions run otherRun constructed).2 ends).2 ?_⟩
  -- The second rank has no room for the records of its edges.
  by_contra every
  push Not at every
  have admitted := (admitted_of_constructed crew 0 rfl every).1
  exact absurd (admitted.recorded 1) (by decide)

end Construction

end DistGraph
