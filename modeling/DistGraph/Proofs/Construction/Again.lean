import DistGraph.Proofs.Construction.GivenIds
import DistGraph.Proofs.Construction.Transpose
import DistGraph.Proofs.Edge.Settled

/-! A graph that keeps its ids is constructed again from the edges that its ranks list. -/

namespace DistGraph

variable {size : Nat}

/-- Whether options ask for the same graph as others once that has been cleaned up. -/
structure Options.Resumes (again options : Options) (count : UInt64) : Prop where
  /-- Ids are kept. -/
  keeps : again.renumber = false
  /-- The number of vertices is given. -/
  counted : again.vertexCount = some count
  /-- Edges are grouped by the same endpoint. -/
  transposed : again.transposed = options.transposed
  /-- Rows are cut into the same segments. -/
  segmentBudget : again.segmentBudget = options.segmentBudget
  /-- No self-loops are dropped that were not before. -/
  drops : again.dropSelfLoops = true → options.dropSelfLoops = true
  /-- No edges are merged that were not before. -/
  merges : again.mergePolicy ≠ .keepAll → options.mergePolicy ≠ .keepAll
  /-- No reverses are added that were not before. -/
  adds : again.addReverses = true → options.addReverses = true

/-- Edges that one cleanup has nothing left to do for are left alone by one that does no more. -/
theorem Options.Resumes.settled {again options : Options} {count : UInt64}
    (resumes : again.Resumes options count) {ends : List (VertexId × VertexId)}
    (settled : Reference.Settled options ends) : Reference.Settled again ends :=
  ⟨fun drops => settled.proper (resumes.drops drops), fun merges => settled.once (resumes.merges merges),
    fun adds => settled.closed (resumes.adds adds)⟩

namespace Construction

variable {members others : Fin size → Member size} {options again : Options}
  {edges kept : Fin size → List Edge}

section Lengths

variable {partition : Partition size} (ranks : size ≤ UInt32.size)
  (short : ∀ rank, (edges rank).length < UInt64.size) (lawful : ∀ rank, (members rank).sorter.Lawful)
  (movable : Movable options members (handedIn options edges) partition)

include lawful movable in
/-- No rank owns more records than it can count. -/
theorem length_owned_le (rank : Fin size) :
    (owned options members (handedIn options edges) partition rank).length ≤ Count.most := by
  unfold owned
  cases adds : options.addReverses with
  | true => exact ((movable.settle adds).carried rank).receives
  | false =>
    -- Without reverses, records meet on their owners and only get fewer there.
    have received := (movable.meet.carried rank).receives
    unfold cleaned Cleanup.tidy
    simp only [adds, Bool.false_eq_true, if_false]
    exact Nat.le_trans (Cleanup.length_mergeParallel_le (lawful rank) _ _) received

include ranks short lawful movable

/-- No rank owns more edges of the graph than it can count. -/
theorem length_filter_owner_le (rank : Fin size) :
    ((Reference.processed options (everything edges)).filter
      ((Placement.byOwner partition options.transposed).sends rank)).length ≤ Count.most :=
  (owned_standFor options partition ranks short lawful rank).length_eq ▸
    length_owned_le lawful movable rank

/-- No more edges of the graph meet as pairs on a rank than it can count. -/
theorem length_filter_pair_le (adds : options.addReverses = true) (rank : Fin size) :
    ((Reference.processed options (everything edges)).filter
      (Placement.byPair.sends rank)).length ≤ Count.most := by
  have stand := cleaned_standFor options lawful (.byOwner partition options.transposed) ranks short rank
  rw [meeting, if_pos adds] at stand
  exact stand.length_eq ▸ ((movable.settle adds).carried rank).sends

end Lengths

/-- Ranks without a limit can deliver records if these stand for edges with the same endpoints as edges that
have ranks to go to, and no rank has to count too many of these. -/
theorem deliverable_of_ends {placement : Placement} {records : Fin size → List EdgeRecord}
    {placed all : List PlacedEdge} (stand : EdgeRecord.StandFor edges (everything records) placed)
    (same : (placed.map PlacedEdge.ends).Perm (all.map PlacedEdge.ends))
    (named : ∀ edge ∈ all, ∃ rank : Fin size, placement.sends rank edge = true)
    (free : ∀ rank, (members rank).memory = none) (sends : ∀ rank, (records rank).length ≤ Count.most)
    (receives : ∀ rank : Fin size, (all.filter (placement.sends rank)).length ≤ Count.most) :
    Routing.Deliverable members Wire.record (placement.destination size) records := by
  -- Where an edge goes is told by its endpoints, so that the other edges can be looked at in its place.
  have alike : ∀ rank : Fin size, ∀ left right : PlacedEdge, left.ends = right.ends →
      placement.sends rank left = placement.sends rank right := fun _ _ _ ends => Placement.sends_congr ends
  refine stand.deliverable (fun edge member => ?_) free sends fun rank => ?_
  · obtain ⟨twin, held, ends⟩ := List.mem_map.mp (same.subset (List.mem_map_of_mem member))
    obtain ⟨rank, goes⟩ := named twin held
    exact ⟨rank, (alike rank _ _ ends).symm.trans goes⟩
  · rw [Reference.length_filter_of_ends (alike rank) same]
    exact receives rank

section Relisted

variable {all : List PlacedEdge} {partition : Partition size}
  (listed : everything kept = (all.mergeSort (PlacedEdge.precedes again.transposed)).map PlacedEdge.edge)
  (settled : Reference.Settled again (all.map PlacedEdge.ends))

include listed

/-- Edges that are listed in order have the endpoints that they had. -/
theorem relisted_ends : ((Reference.handedIn (everything kept)).map PlacedEdge.ends).Perm
    (all.map PlacedEdge.ends) := by
  have ends : PlacedEdge.ends = Edge.ends ∘ PlacedEdge.edge := rfl
  rw [Reference.map_ends_handedIn, listed, List.map_map, ← ends]
  exact (List.mergeSort_perm _ _).map _

include settled

/-- The listed edges leave nothing to be cleaned up. -/
theorem relisted_settled : Reference.Settled again ((everything kept).map Edge.ends) := by
  rw [← Reference.map_ends_handedIn]
  exact settled.perm (relisted_ends listed)

/-- The graph of the edges that were listed has edges with the same endpoints. -/
theorem relisted_processed_ends : ((Reference.processed again (everything kept)).map PlacedEdge.ends).Perm
    (all.map PlacedEdge.ends) :=
  ((Reference.processed_of_settled (relisted_settled listed settled)).map _).trans (relisted_ends listed)

variable (ranks : size ≤ UInt32.size) (short : ∀ rank, (kept rank).length < UInt64.size)
  (lawful : ∀ rank, (others rank).sorter.Lawful)

include ranks short lawful

/-- The records of the edges that were listed can move again. -/
theorem relisted_movable (someone : Fin size) (free : ∀ rank, (others rank).memory = none)
    (held : ∀ rank, (kept rank).length ≤ Count.most)
    (named : ∀ edge ∈ all, ∃ rank : Fin size,
      (Placement.byOwner partition again.transposed).sends rank edge = true)
    (owns : ∀ rank : Fin size,
      (all.filter ((Placement.byOwner partition again.transposed).sends rank)).length ≤ Count.most)
    (pairs : again.addReverses = true → ∀ rank : Fin size,
      (all.filter (Placement.byPair.sends rank)).length ≤ Count.most) :
    Movable again others (handedIn again kept) partition := by
  have sent : ∀ rank, (handedIn again kept rank).length ≤ Count.most :=
    fun rank => Nat.le_trans (length_handedIn_le again kept rank) (held rank)
  have stand : EdgeRecord.StandFor kept (everything (handedIn again kept))
      (Reference.handedIn (everything kept)) := by
    rw [← Reference.kept_of_settled (relisted_settled listed settled),
      ← placed_handedIn again ranks short]
    exact ⟨handedIn_genuine again ranks short, .refl _⟩
  -- Every pair has a rank to meet on, whatever the records are.
  have paired : ∀ edge ∈ all, ∃ rank : Fin size, Placement.byPair.sends rank edge = true := by
    intro edge _
    obtain ⟨rank, goes⟩ := Placement.exists_destination_byPair someone (.ofEdge edge.edge 0 0)
    exact ⟨rank, decide_eq_true goes⟩
  refine ⟨?_, fun adds => ?_⟩
  · -- Records meet by pair if reverses are asked for, and on their owners if not.
    unfold meeting
    split
    · exact deliverable_of_ends stand (relisted_ends listed) paired free sent (pairs ‹_›)
    · exact deliverable_of_ends stand (relisted_ends listed) named free sent owns
  · have same := relisted_processed_ends listed settled
    refine deliverable_of_ends (paired_standFor again ranks short lawful someone adds _) same named free
      (fun rank => ?_) owns
    -- What a rank has cleaned up is what meets on it.
    have meets := cleaned_standFor again lawful (.byOwner partition again.transposed) ranks short rank
    rw [meeting, if_pos adds] at meets
    rw [meets.length_eq, Reference.length_filter_of_ends (fun _ _ => Placement.sends_congr) same]
    exact pairs adds rank

/-- Owners sort the edges that were listed into the same order again. -/
theorem relisted_sorted {sorter : Sorter} {records : List EdgeRecord} (keyed : sorter.Lawful) (rank : Fin size)
    (distinct : Reference.Distinct all) (stand : EdgeRecord.StandFor edges records
      (all.filter ((Placement.byOwner partition again.transposed).sends rank))) :
    ((others rank).sorter.records again.transposed
        (owned again others (handedIn again kept) partition rank)).map EdgeRecord.toEdge =
      (sorter.records again.transposed records).map EdgeRecord.toEdge := by
  -- Settled edges are processed into themselves, in the positions of the list.
  have same := (Reference.processed_of_settled (relisted_settled listed settled)).trans
    (List.Perm.of_eq (congrArg Reference.handedIn listed))
  have distinctAgain := Reference.processed_distinct again (everything kept)
  rw [stand.map_toEdge_sorted_eq keyed (distinct.filter _),
    (owned_standFor again partition ranks short lawful rank).map_toEdge_sorted_eq (lawful rank)
      (distinctAgain.filter _)]
  exact Reference.listed_again (fun _ _ => Placement.sends_congr) distinct distinctAgain same

end Relisted

/-- Ranks without a limit are admitted with edges that have finite weights and lie between vertices that are
counted, if they list no vertices. -/
theorem admitted_of_edges {count : UInt64} (counted : again.vertexCount = some count)
    (free : ∀ rank, (others rank).memory = none) (held : ∀ rank, (kept rank).length ≤ Count.most)
    (finite : ∀ rank, ∀ edge ∈ kept rank, ∀ weight, edge.weight = some weight → weight.isFinite = true)
    (below : ∀ rank, ∀ edge ∈ kept rank, edge.src < count ∧ edge.dst < count) :
    Admitted others kept (fun _ => []) again := by
  -- Without lists there is nothing to compare between ranks but the options.
  have none_listed : everything (fun _ : Fin size => ([] : List VertexId)) = [] :=
    List.eq_nil_iff_forall_not_mem.mpr fun vertex member => by
      obtain ⟨rank, listed⟩ := mem_everything.mp member
      exact List.not_mem_nil listed
  refine ⟨⟨fun rank => checkOwn_eq_ok_iff.mpr ⟨finite rank, fun limit given id member => ?_⟩,
    fun _ => none_listed.symm ▸ List.nodup_nil, fun _ lists => absurd none_listed lists⟩,
    fun _ lists => absurd none_listed lists, fun rank => ?_⟩
  · rw [counted, Option.some.injEq] at given
    rw [List.append_nil, mem_endpoints] at member
    obtain ⟨edge, own, rfl | rfl⟩ := member
    · exact given ▸ (below rank edge own).1
    · exact given ▸ (below rank edge own).2
  · exact (Member.holds_of_unlimited (free rank) (held rank)).makeRoom (Wire.bytes_le Wire.record)
      (Nat.le_refl _)

/-- Ranks that construct a graph on given ids share one partition, and list the edges of the reference list. -/
theorem shared_and_listed (crew : Crew size) (someone : Fin size) (ranks : size ≤ UInt32.size)
    (edges : Fin size → List Edge) (vertices : Fin size → List VertexId) (keeps : options.renumber = false)
    {constructed : Fin size → Constructed size}
    (together : Together (fun rank => construct (crew.members rank) (edges rank) (vertices rank) options)
      constructed) :
    (∃ partition, ∀ rank, (constructed rank).partition = partition) ∧
      (everything fun rank => (constructed rank).view.edges) =
        Reference.edgeList options (everything edges) := by
  -- The partition is a part of what every rank constructs, and the rows of all ranks follow each other.
  obtain ⟨partition, counted, computes⟩ := construct_computes_givenIds crew someone edges vertices keeps
  obtain ⟨admitted, -, movable, views, built, rfl⟩ := computes.together_iff.mp together
  have short := fun rank => length_lt_of_makeRoom (admitted.recorded rank)
  exact ⟨⟨partition, fun _ => rfl⟩, built.everything_edges_eq crew.lawful
    (owned_standFor options partition ranks short crew.lawful)
    (owned_named options partition ranks short crew.lawful someone movable)
    (Reference.processed_distinct options (everything edges))⟩

/-- If ranks construct a graph that keeps its ids, ranks without a limit construct the same graph of the edges
that they list. -/
theorem together_again (crew other : Crew size) (someone : Fin size) (ranks : size ≤ UInt32.size)
    (memory : ∀ rank, (other.members rank).memory = (crew.members rank).memory)
    (free : ∀ rank, (crew.members rank).memory = none)
    (edges : Fin size → List Edge) (vertices : Fin size → List VertexId) (keeps : options.renumber = false)
    {constructed : Fin size → Constructed size}
    (together : Together (fun rank => construct (crew.members rank) (edges rank) (vertices rank) options)
      constructed)
    (finite : ∀ rank, ∀ edge ∈ (constructed rank).view.edges, ∀ weight, edge.weight = some weight →
      weight.isFinite = true)
    (resumes : ∀ rank, again.Resumes options (constructed rank).partition.vertexCount) :
    Together (fun rank => construct (other.members rank) (constructed rank).view.edges [] again)
      constructed := by
  obtain ⟨-, listed⟩ := shared_and_listed crew someone ranks edges vertices keeps together
  obtain ⟨partition, shared, counted⟩ := Partition.exists_even
    (vertexTotal options (handedIn options edges) vertices) (Nat.ne_of_gt someone.pos)
  obtain ⟨admitted, bounded, movable, views, built, rfl⟩ :=
    (construct_computes_shared crew edges vertices keeps shared).together_iff.mp together
  have resumed := resumes someone
  have short := fun rank => length_lt_of_makeRoom (admitted.recorded rank)
  have distinct := Reference.processed_distinct options (everything edges)
  have named := owned_named options partition ranks short crew.lawful someone movable
  have stand := owned_standFor options partition ranks short crew.lawful
  have settled := resumed.settled (Reference.processed_settled options (everything edges))
  -- A rank lists as many edges as it holds records, which it could count when they reached it.
  have held : ∀ rank, (views rank).edges.length ≤ Count.most := by
    intro rank
    rw [built.edges_eq crew.lawful, List.length_map,
      ((crew.lawful rank).records_perm _ _).length_eq]
    exact length_owned_le crew.lawful movable rank
  have shortAgain : ∀ rank, (views rank).edges.length < UInt64.size :=
    fun rank => Nat.lt_of_le_of_lt (held rank) (by decide)
  -- The number of vertices is given this time, and shares out as it did before.
  have sharedAgain : Partition.even (vertexTotal again (handedIn again fun rank => (views rank).edges)
      fun _ => []) size = .ok partition := by
    rw [vertexTotal, resumed.counted, Option.getD_some, counted, shared]
  have freeAgain : ∀ rank, (other.members rank).memory = none := fun rank => (memory rank).trans (free rank)
  rw [Reference.edgeList, ← resumed.transposed] at listed
  rw [← resumed.transposed] at named stand built
  rw [← resumed.segmentBudget] at built
  refine (construct_computes_shared other (fun rank => (views rank).edges) (fun _ => []) resumed.keeps
    sharedAgain).together_iff.mpr ⟨?_, ?_, ?_, views, ?_, rfl⟩
  · -- Every edge that a rank lists lies between vertices of the graph.
    refine admitted_of_edges resumed.counted freeAgain held finite fun rank edge member => ?_
    rw [built.edges_eq crew.lawful] at member
    obtain ⟨record, own, rfl⟩ := List.mem_map.mp member
    exact owned_ends crew.lawful counted admitted.accepted bounded rank record
      (((crew.lawful rank).records_perm _ _).subset own)
  · exact fun absent => nomatch resumed.counted.symm.trans absent
  · -- Listed edges move no farther than the records that they come from.
    refine relisted_movable listed settled ranks shortAgain other.lawful someone freeAgain held named
      (fun rank => ?_) fun adds => ?_
    · rw [resumed.transposed]
      exact length_filter_owner_le ranks short crew.lawful movable rank
    · exact length_filter_pair_le ranks short crew.lawful movable (resumed.adds adds)
  · -- What the owners sort is what they sorted before, so that the same rows come out of it.
    exact built.congr memory crew.lawful other.lawful fun rank => relisted_sorted listed settled ranks
      shortAgain other.lawful (crew.lawful rank) rank distinct (stand rank)

/-- However the ranks take turns, if they construct a graph that keeps its ids, and all weights are finite that
they store, then ranks without a limit construct the same graph, with the same owners, segments, rows and
number of edges, of the edges that each of them lists, both if they clean these up again in the same way and
if they leave them as they are. A record has 32 bits for the rank that it comes from, and no memory has
mailboxes for more ranks than that. -/
theorem construct_again (crew other : Crew size) (occupied : 0 < size) (ranks : size ≤ UInt32.size)
    (free : ∀ rank, (crew.members rank).memory = none) (otherFree : ∀ rank, (other.members rank).memory = none)
    (edges : Fin size → List Edge) (vertices : Fin size → List VertexId) (options : Options)
    (keeps : options.renumber = false)
    (run : Cluster.Run (Vector.ofFn fun rank =>
      construct (crew.members rank) (edges rank) (vertices rank) options))
    (constructed : Fin size → Constructed size)
    (ends : ∀ rank, run.outcome rank = some (.ok (constructed rank)))
    (finite : ∀ rank, ∀ edge ∈ (constructed rank).view.edges, ∀ weight, edge.weight = some weight →
      weight.isFinite = true)
    (againRun : Cluster.Run (Vector.ofFn fun rank =>
      construct (other.members rank) (constructed rank).view.edges []
        { options with vertexCount := some (constructed rank).partition.vertexCount }))
    (plainRun : Cluster.Run (Vector.ofFn fun rank =>
      construct (other.members rank) (constructed rank).view.edges []
        { options with
          vertexCount := some (constructed rank).partition.vertexCount, addReverses := false
          mergePolicy := .keepAll })) :
    (∀ rank, againRun.outcome rank = some (.ok (constructed rank))) ∧
      ∀ rank, plainRun.outcome rank = some (.ok (constructed rank)) := by
  have together := run.together_iff.mp ends
  obtain ⟨⟨partition, shared⟩, -⟩ :=
    shared_and_listed crew ⟨0, occupied⟩ ranks edges vertices keeps together
  have memory : ∀ rank, (other.members rank).memory = (crew.members rank).memory :=
    fun rank => (otherFree rank).trans (free rank).symm
  -- Both choices of options go on from the first graph and differ only in what is already done.
  have resumed : ∀ again : Options, again.Resumes options partition.vertexCount →
      Together (fun rank => construct (other.members rank) (constructed rank).view.edges [] again)
        constructed := by
    intro again resumes
    refine together_again crew other ⟨0, occupied⟩ ranks memory free edges vertices keeps together finite
      fun rank => ?_
    rw [shared rank]
    exact resumes
  refine ⟨againRun.together_iff.mpr ?_, plainRun.together_iff.mpr ?_⟩
  · simp only [shared]
    exact resumed _ ⟨keeps, rfl, rfl, rfl, id, id, id⟩
  · simp only [shared]
    exact resumed _ ⟨keeps, rfl, rfl, rfl, id, fun merges => absurd rfl merges, fun adds => nomatch adds⟩

/-- Two ranks construct the graph of a self-loop, parallel edges and a one-way edge again and again. -/
theorem construct_again_sample :
    let crew : Crew 2 := Crew.stable fun _ => none
    ∃ (run : Cluster.Run (Vector.ofFn fun rank : Fin 2 =>
        construct (crew.members rank) (sampleEdges rank) [] sampleOptions))
      (constructed : Fin 2 → Constructed 2)
      (againRun : Cluster.Run (Vector.ofFn fun rank : Fin 2 =>
        construct (crew.members rank) (constructed rank).view.edges []
          { sampleOptions with vertexCount := some (constructed rank).partition.vertexCount }))
      (plainRun : Cluster.Run (Vector.ofFn fun rank : Fin 2 =>
        construct (crew.members rank) (constructed rank).view.edges []
          { sampleOptions with
            vertexCount := some (constructed rank).partition.vertexCount, addReverses := false
            mergePolicy := .keepAll })),
      (∀ rank, run.outcome rank = some (.ok (constructed rank))) ∧
      (∀ rank, againRun.outcome rank = some (.ok (constructed rank))) ∧
      ∀ rank, plainRun.outcome rank = some (.ok (constructed rank)) := by
  intro crew
  obtain ⟨run⟩ := Cluster.Run.exists_of_programs (Vector.ofFn fun rank : Fin 2 =>
    construct (crew.members rank) (sampleEdges rank) [] sampleOptions)
  obtain ⟨constructed, ends⟩ := exists_sample_constructed crew (fun _ => rfl) run
  obtain ⟨againRun⟩ := Cluster.Run.exists_of_programs (Vector.ofFn fun rank : Fin 2 =>
    construct (crew.members rank) (constructed rank).view.edges []
      { sampleOptions with vertexCount := some (constructed rank).partition.vertexCount })
  obtain ⟨plainRun⟩ := Cluster.Run.exists_of_programs (Vector.ofFn fun rank : Fin 2 =>
    construct (crew.members rank) (constructed rank).view.edges []
      { sampleOptions with
        vertexCount := some (constructed rank).partition.vertexCount, addReverses := false
        mergePolicy := .keepAll })
  obtain ⟨-, listed⟩ := shared_and_listed crew 0 (by decide) sampleEdges (fun _ => []) rfl
    (run.together_iff.mp ends)
  -- No edge of the sample carries a weight, so that none is infinite.
  have unweighted : ∀ placed ∈ Reference.processed sampleOptions (everything sampleEdges),
      placed.edge.weight = none := by decide
  refine ⟨run, constructed, againRun, plainRun, ends, construct_again crew crew (by decide) (by decide)
    (fun _ => rfl) (fun _ => rfl) sampleEdges (fun _ => []) sampleOptions rfl run constructed ends
    (fun rank edge member weight weighs => ?_) againRun plainRun⟩
  have stored : edge ∈ Reference.edgeList sampleOptions (everything sampleEdges) :=
    listed ▸ mem_everything.mpr ⟨rank, member⟩
  obtain ⟨placed, sorted, rfl⟩ := List.mem_map.mp stored
  have held := (List.mergeSort_perm _ _).subset sorted
  exact nomatch weighs.symm.trans (unweighted placed held)

end Construction

end DistGraph
