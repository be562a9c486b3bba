import DistGraph.Proofs.Adjacency.Transpose
import DistGraph.Proofs.Construction.Verdict

/-! The edges of a constructed graph can be turned around any number of times. -/

namespace DistGraph.Construction

variable {size : Nat} {members : Fin size → Member size} {options : Options}
  {edges : Fin size → List Edge} {vertices : Fin size → List VertexId}

/-- Both endpoints of a record are vertices if its own and its other one are. -/
theorem minor_lt_of_ends {record : EdgeRecord} {count : UInt64} (transposed : Bool)
    (ends : record.src < count ∧ record.dst < count) : record.minor transposed < count := by
  -- The minor endpoint is one of the two.
  unfold EdgeRecord.minor
  split
  · exact ends.1
  · exact ends.2

/-- The endpoints of records on given ids are below the number of vertices. -/
theorem owned_ends (lawful : ∀ rank, (members rank).sorter.Lawful) {partition : Partition size}
    (counted : partition.vertexCount = vertexTotal options (handedIn options edges) vertices)
    (accepted : Accepted edges vertices options)
    (bounded : Bounded options (handedIn options edges) vertices) :
    ∀ rank, ∀ record ∈ owned options members (handedIn options edges) partition rank,
      record.src < partition.vertexCount ∧ record.dst < partition.vertexCount := by
  -- The endpoints were named by the ranks that handed the records in.
  exact forall_owned lawful (· < partition.vertexCount) (forall_everything fun rank =>
    bounded.ends_lt counted fun limit given id own =>
      lt_of_checkOwn given (accepted.own rank) id (named_subset options rank own))

variable (options edges vertices) in
/-- Ranks construct views of a whole graph, if they construct any. -/
theorem construct_computes_whole (crew : Crew size) (someone : Fin size) : ∃ describes,
    Computes (fun rank => construct (crew.members rank) (edges rank) (vertices rank) options) describes ∧
    ∀ constructed, describes constructed → ∃ partition records,
      View.Whole crew.members records partition options.transposed options.segmentBudget
        fun rank => (constructed rank).view := by
  -- In either way the records that are stored lie between vertices of the partition.
  cases renumbers : options.renumber with
  | false =>
    obtain ⟨partition, counted, computes⟩ :=
      construct_computes_givenIds crew someone edges vertices renumbers
    refine ⟨_, computes, ?_⟩
    rintro _ ⟨admitted, bounded, -, views, built, rfl⟩
    refine ⟨partition, _, built, fun rank record member => ?_⟩
    exact minor_lt_of_ends _ (owned_ends crew.lawful counted admitted.accepted bounded rank record member)
  | true =>
    refine ⟨_, construct_computes_newIds crew someone edges vertices renumbers, ?_⟩
    rintro _ ⟨-, agreement, renumbered, views, built, rfl⟩
    refine ⟨agreement.partition, _, built, fun rank record member => ?_⟩
    obtain ⟨sender, held⟩ := mem_everything.mp (List.mem_of_mem_filter member)
    exact minor_lt_of_ends _
      (relabelled_ends crew.lawful renumbered.assigned.agreed sender record held)

/-- Constructs a graph and turns all of its edges around a number of times. -/
def constructTurned (self : Member size) (edges : List Edge) (vertices : List VertexId)
    (options : Options) : (times : Nat) → Program size Failure (View size)
  -- Every time takes the view that the time before has left.
  | 0 => do
    let constructed ← construct self edges vertices options
    return constructed.view
  | times + 1 => do
    let view ← constructTurned self edges vertices options times
    View.transpose self view

variable (options edges vertices) in
/-- However often the edges are turned around, ranks come to views of a whole graph if to any. -/
theorem constructTurned_computes_whole (crew : Crew size) (someone : Fin size) (times : Nat) :
    ∃ describes, Computes (fun rank =>
        constructTurned (crew.members rank) (edges rank) (vertices rank) options times) describes ∧
      ∀ views, describes views → ∃ partition records,
        View.Whole crew.members records partition options.transposed options.segmentBudget views := by
  induction times with
  | zero =>
    obtain ⟨describes, computes, known⟩ := construct_computes_whole options edges vertices crew someone
    refine ⟨_, computes.bind (fun constructed views => views = fun rank => (constructed rank).view)
      fun constructed _ => Computes.pure _, ?_⟩
    rintro _ ⟨constructed, described, rfl⟩
    exact known constructed described
  | succ times ih =>
    obtain ⟨describes, computes, known⟩ := ih
    -- What is known of the views before says what follows on them.
    refine ⟨_, computes.bind (fun views => Together fun rank =>
      View.transpose (crew.members rank) (views rank)) fun views described => ?_, ?_⟩
    · obtain ⟨partition, records, whole⟩ := known views described
      have turns := View.transpose_computes whole.toBuilt crew.ranked
      exact turns.congr fun results => turns.together_iff.symm
    · rintro results ⟨views, described, together⟩
      obtain ⟨partition, records, whole⟩ := known views described
      obtain ⟨-, built⟩ := (View.transpose_computes whole.toBuilt crew.ranked).together_iff.mp together
      exact ⟨partition, _, built, whole.turned_inside crew.lawful⟩

/-- However the ranks take turns, ranks without a limit that have constructed a graph, and have turned its
edges around any number of times, succeed in turning them around once more if they can count what they
exchange. They then show the graph with every edge turned around, and turning once more gives back what
they had before. -/
theorem transpose_exact (crew : Crew size) (occupied : 0 < size)
    (free : ∀ rank, (crew.members rank).memory = none) (edges : Fin size → List Edge)
    (vertices : Fin size → List VertexId) (options : Options) (times : Nat)
    (made : Cluster.Run (Vector.ofFn fun rank =>
      constructTurned (crew.members rank) (edges rank) (vertices rank) options times))
    (views : Fin size → View size) (ends : ∀ rank, made.outcome rank = some (.ok (views rank)))
    (turnable : View.Turnable views) :
    ∃ reversed, View.Reversed views reversed ∧
      (∀ run : Cluster.Run (Vector.ofFn fun rank =>
        constructTurned (crew.members rank) (edges rank) (vertices rank) options (times + 1)),
        ∀ rank, run.outcome rank = some (.ok (reversed rank))) ∧
      ∀ run : Cluster.Run (Vector.ofFn fun rank =>
        constructTurned (crew.members rank) (edges rank) (vertices rank) options (times + 2)),
        ∀ rank, run.outcome rank = some (.ok (views rank)) := by
  have before := made.together_iff.mp ends
  obtain ⟨describes, computes, known⟩ :=
    constructTurned_computes_whole options edges vertices crew ⟨0, occupied⟩ times
  -- Views of a whole graph can be turned around, which leaves views of a whole graph.
  obtain ⟨partition, records, whole⟩ := known views (computes.together_iff.mp before)
  obtain ⟨reversed, turned, wholeAgain, first, turnableAgain⟩ :=
    whole.exists_reversed crew.lawful turnable crew.ranked free
  obtain ⟨again, turnedAgain, last, second, -⟩ :=
    wholeAgain.exists_reversed crew.lawful turnableAgain crew.ranked free
  have back : again = views := whole.eq_of_reversed_reversed crew.lawful first second last.toBuilt
  subst back
  have once := before.bind turned
  exact ⟨reversed, first, fun run => run.together_iff.mpr once,
    fun run => run.together_iff.mpr (once.bind turnedAgain)⟩

/-- Two ranks turn the edges of a graph around, and turn them back. -/
theorem transpose_exact_sample :
    ∃ (views reversed : Fin 2 → View 2) (made : Cluster.Run (Vector.ofFn fun rank : Fin 2 =>
        constructTurned ((Crew.stable fun _ => none).members rank) (sampleEdges rank) [] sampleOptions 0))
      (once : Cluster.Run (Vector.ofFn fun rank : Fin 2 =>
        constructTurned ((Crew.stable fun _ => none).members rank) (sampleEdges rank) [] sampleOptions 1))
      (twice : Cluster.Run (Vector.ofFn fun rank : Fin 2 =>
        constructTurned ((Crew.stable fun _ => none).members rank) (sampleEdges rank) [] sampleOptions 2)),
      (∀ rank, made.outcome rank = some (.ok (views rank))) ∧ View.Reversed views reversed ∧
      (∀ rank, once.outcome rank = some (.ok (reversed rank))) ∧
      ∀ rank, twice.outcome rank = some (.ok (views rank)) := by
  let crew : Crew 2 := Crew.stable fun _ => none
  let turning (times : Nat) (rank : Fin 2) : Program 2 Failure (View 2) :=
    constructTurned (crew.members rank) (sampleEdges rank) [] sampleOptions times
  obtain ⟨constructing⟩ := Cluster.Run.exists_of_programs (Vector.ofFn fun rank : Fin 2 =>
    construct (crew.members rank) (sampleEdges rank) [] sampleOptions)
  -- The views come out of a construction without a turn, and are turned twice after that.
  obtain ⟨constructed, constructs⟩ := exists_sample_constructed crew (fun _ => rfl) constructing
  obtain ⟨partition, -, computes⟩ := construct_computes_givenIds crew 0 sampleEdges (fun _ => [])
    (rfl : sampleOptions.renumber = false)
  obtain ⟨-, -, -, views, built, rfl⟩ := computes.together_iff.mp (constructing.together_iff.mp constructs)
  -- No more edges are stored than were handed in, each with its reverse.
  have few := length_everything_owned_le crew.members sampleOptions (handedIn sampleOptions sampleEdges)
    crew.lawful partition
  have turnable : View.Turnable views := built.turnable crew.lawful (Nat.le_trans few (by decide))
  obtain ⟨made⟩ := Cluster.Run.exists_of_programs (Vector.ofFn (turning 0))
  obtain ⟨once⟩ := Cluster.Run.exists_of_programs (Vector.ofFn (turning 1))
  obtain ⟨twice⟩ := Cluster.Run.exists_of_programs (Vector.ofFn (turning 2))
  have ends : ∀ rank, made.outcome rank = some (.ok (views rank)) :=
    made.together_iff.mpr ((constructing.together_iff.mp constructs).bind (.done fun _ => rfl))
  obtain ⟨reversed, turned, first, second⟩ := transpose_exact crew (by decide) (fun _ => rfl) sampleEdges
    (fun _ => []) sampleOptions 0 made views ends turnable
  exact ⟨views, reversed, made, once, twice, ends, turned, first once, second twice⟩

end DistGraph.Construction
