import DistGraph.Proofs.Adjacency.Places
import DistGraph.Proofs.Construction.Transpose
import DistGraph.Proofs.Ownership

/-! Places among the vertices of a rank are found in the graphs that ranks construct and turn around. -/

namespace DistGraph.Construction

variable {size : Nat} {self : Member size}

/-- Whatever the other ranks send, a construction on new ids leaves a rank with a tiled view. -/
theorem onNewIds_yields (lawful : self.sorter.Lawful) (records : List EdgeRecord)
    (vertices : List VertexId) (options : Options) :
    (onNewIds self records vertices options).Yields fun constructed => constructed.view.Tiled :=
  .after fun _ => .after fun _ => .after fun placed =>
    (View.build_yields lawful placed _ _ _).bind fun _ tiled => tiled

/-- A graph on given ids has a view whose segments tile its run. -/
theorem onGivenIds_yields (lawful : self.sorter.Lawful) (records : List EdgeRecord)
    (vertices : List VertexId) (options : Options) :
    (onGivenIds self records vertices options).Yields fun constructed => constructed.view.Tiled := by
  rw [onGivenIds_eq]
  exact .after fun _ => .after fun _ => .after fun _ => .after fun placed =>
    (View.build_yields lawful placed _ _ _).bind fun _ tiled => tiled

/-- A graph has a view whose segments tile its run. -/
theorem construct_yields (lawful : self.sorter.Lawful) (edges : List Edge) (vertices : List VertexId)
    (options : Options) :
    (construct self edges vertices options).Yields fun constructed => constructed.view.Tiled := by
  -- Checks, records and the confirmation have no part in the view.
  have built : ∀ records, (build self records vertices options).Yields
      fun constructed => constructed.view.Tiled := by
    intro records
    unfold build
    split
    · exact onNewIds_yields lawful records vertices options
    · exact onGivenIds_yields lawful records vertices options
  rw [construct_eq]
  exact .after fun _ => .after fun records => (built records).bind fun _ tiled => .after fun _ => tiled

/-- A graph whose edges were turned around any number of times has such a view. -/
theorem constructTurned_yields (lawful : self.sorter.Lawful) (edges : List Edge) (vertices : List VertexId)
    (options : Options) (times : Nat) :
    (constructTurned self edges vertices options times).Yields View.Tiled := by
  -- Turning around builds a new view, so nothing has to be known of the one before.
  induction times with
  | zero => exact (construct_yields lawful edges vertices options).bind fun _ tiled => tiled
  | succ times ih => exact .after fun view => View.transpose_yields lawful view

/-- Three vertices are shared out over two ranks, of which the second one gets the last. -/
theorem exists_sample_view :
    ∃ (run : Cluster.Run (Vector.ofFn fun rank : Fin 2 =>
        constructTurned ((Crew.stable fun _ => none).members rank) (sampleEdges rank) [] sampleOptions 0))
      (view : View 2), run.outcome 1 = some (.ok view) ∧ view.range = ⟨2, 3⟩ := by
  let crew : Crew 2 := Crew.stable fun _ => none
  obtain ⟨constructing⟩ := Cluster.Run.exists_of_programs (Vector.ofFn fun rank : Fin 2 =>
    construct (crew.members rank) (sampleEdges rank) [] sampleOptions)
  obtain ⟨constructed, constructs⟩ := exists_sample_constructed crew (fun _ => rfl) constructing
  obtain ⟨partition, shared, -⟩ := @Partition.exists_even 2 3 (by decide)
  -- The greatest id of the sample is two, so that there are three vertices to share out.
  have counted : vertexTotal sampleOptions (handedIn sampleOptions sampleEdges) (fun _ => []) = 3 := by
    decide
  have computes := construct_computes_shared crew sampleEdges (fun _ => [])
    (rfl : sampleOptions.renumber = false) (counted ▸ shared)
  have together := constructing.together_iff.mp constructs
  obtain ⟨-, -, -, views, built, rfl⟩ := computes.together_iff.mp together
  obtain ⟨run⟩ := Cluster.Run.exists_of_programs (Vector.ofFn fun rank : Fin 2 =>
    constructTurned (crew.members rank) (sampleEdges rank) [] sampleOptions 0)
  have ends : ∀ rank, run.outcome rank = some (.ok (views rank)) :=
    run.together_iff.mpr (together.bind (.done fun _ => rfl))
  -- Of three ids the first rank takes two, its full share and the surplus.
  have start : partition.boundary 1 (by decide) = 2 := Partition.boundary_even shared 1 (by decide)
  have stop : partition.boundary 2 (by decide) = 3 := Partition.boundary_even shared 2 (by decide)
  have first : (partition.spanOf 1).start = 2 := UInt64.toNat_inj.mp start
  have last : (partition.spanOf 1).stop = 3 := UInt64.toNat_inj.mp stop
  exact ⟨run, views 1, ends 1, by rw [built.range_eq 1, ← first, ← last]⟩

/-- However the ranks take turns and whatever the others do, the view of a rank that has constructed a graph
and has turned its edges around any number of times finds the places of its vertices and no others. Only a
place whose id does not fit a word is refused. -/
theorem locatePlace_exact (lawful : self.sorter.Lawful) (edges : List Edge) (vertices : List VertexId)
    (options : Options) (times : Nat) {programs : Vector (Program size Failure (View size)) size}
    {rank : Fin size} (own : programs.get rank = constructTurned self edges vertices options times)
    (run : Cluster.Run programs) {view : View size} (ends : run.outcome rank = some (.ok view)) :
    view.Finds :=
  View.Tiled.finds (run.allowed_of_outcome (own ▸ constructTurned_yields lawful edges vertices options times)
    ends)

/-- The rank with the last vertex finds it in its first place, and nothing in its second one. -/
theorem locatePlace_exact_sample :
    ∃ (run : Cluster.Run (Vector.ofFn fun rank : Fin 2 =>
        constructTurned ((Crew.stable fun _ => none).members rank) (sampleEdges rank) [] sampleOptions 0))
      (view : View 2), (Sorter.stable.Lawful ∧ run.outcome 1 = some (.ok view)) ∧ view.Finds ∧
        (∃ segment row, view.locatePlace 0 = .ok (some (segment, row)) ∧ view.Holds segment 2) ∧
        view.locatePlace 1 = .ok none := by
  -- The second rank owns the third vertex and no other.
  obtain ⟨run, view, ends, range⟩ := exists_sample_view
  have finds := locatePlace_exact ((Crew.stable fun _ => none).lawful 1) (sampleEdges 1) [] sampleOptions 0
    (Cluster.ofFn_get _ 1) run ends
  have answers := finds.answers
  rw [range] at answers
  refine ⟨run, view, ⟨Sorter.stable_lawful, ends⟩, finds, ?_, ?_⟩
  · obtain ⟨found, located, -, present, exact⟩ := answers 0 (by decide)
    obtain ⟨⟨segment, row⟩, rfl⟩ := Option.isSome_iff_exists.mp (present.mpr (by decide))
    exact ⟨segment, row, located, (exact segment row rfl).1⟩
  · obtain ⟨found, located, -, present, -⟩ := answers 1 (by decide)
    have absent := mt present.mp (by decide)
    rw [Option.not_isSome_iff_eq_none] at absent
    rw [located, absent]

/-- The greatest place of that rank is no place of a vertex, and yet it is not looked up but refused. -/
theorem exists_place_refused :
    ∃ (run : Cluster.Run (Vector.ofFn fun rank : Fin 2 =>
        constructTurned ((Crew.stable fun _ => none).members rank) (sampleEdges rank) [] sampleOptions 0))
      (view : View 2), run.outcome 1 = some (.ok view) ∧
        ¬ (0xffffffffffffffff : UInt64).toNat < view.range.length ∧
        view.locatePlace 0xffffffffffffffff = .error .overflow ∧
        view.storedAt 0xffffffffffffffff = .error .overflow := by
  obtain ⟨run, view, ends, range⟩ := exists_sample_view
  -- The run starts above zero, so that the greatest place lies past the id space.
  have great : UInt64.size ≤ view.range.start.toNat + (0xffffffffffffffff : UInt64).toNat := by
    rw [range]
    decide
  exact ⟨run, view, ends, by rw [range]; decide, View.locatePlace_of_ge great, View.storedAt_of_ge great⟩

end DistGraph.Construction
