import DistGraph.Proofs.Adjacency.Plain
import DistGraph.Proofs.Construction.GivenIds
import DistGraph.Proofs.Construction.NewIds
import DistGraph.Proofs.Construction.Outcomes
import DistGraph.Proofs.Edge.Ends
import DistGraph.Proofs.Edge.Reversed
import DistGraph.Proofs.Numbering.Ties

/-! Grouping edges by destination is grouping their reverses by source. -/

namespace DistGraph

variable {size : Nat}

/-- The same choices with the other orientation. -/
def Options.dual (options : Options) : Options :=
  -- Nothing else tells sources from destinations.
  { options with transposed := !options.transposed }

/-- The placement that sends the reverse of an edge where the edge goes. -/
def Placement.dual : Placement → Placement
  -- A pair of endpoints has no direction.
  | .byOwner partition transposed => .byOwner partition (!transposed)
  | .byHash transposed => .byHash (!transposed)
  | .byPair => .byPair

/-- In the other orientation a turned record goes where the record goes. -/
theorem Placement.destination_dual (placement : Placement) (ranks : Nat) (record : EdgeRecord) :
    placement.dual.destination ranks record.reversed = placement.destination ranks record := by
  -- Placed by an endpoint it is the same endpoint, and a pair has no orientation.
  cases placement with
  | byOwner partition transposed =>
    simp only [dual, destination, EdgeRecord.major_reversed]
  | byHash transposed => simp only [dual, destination, EdgeRecord.major_reversed]
  | byPair => exact destination_byPair_reversed ranks record

/-- Only the endpoints of a record decide where it goes. -/
theorem Placement.destination_congr_ends (placement : Placement) {ranks : Nat} (left right : EdgeRecord)
    (same : left.ends = right.ends) :
    placement.destination ranks left = placement.destination ranks right := by
  obtain ⟨src, dst⟩ := Prod.mk.inj same
  exact placement.destination_congr ranks left right src dst

/-- In the other orientation a turned edge goes where the edge goes. -/
theorem Placement.sends_dual (placement : Placement) (rank : Fin size) (placed : PlacedEdge) :
    placement.dual.sends rank placed.reversed = placement.sends rank placed :=
  congrArg (fun goes => decide (goes = Except.ok rank.val))
    (placement.destination_dual size (.ofEdge placed.edge 0 0))

/-- The reverses that go to a rank are those of the edges that do. -/
theorem filter_sends_dual (placement : Placement) (rank : Fin size) (placed : List PlacedEdge) :
    (placed.map PlacedEdge.reversed).filter (placement.dual.sends rank) =
      (placed.filter (placement.sends rank)).map PlacedEdge.reversed := by
  rw [List.filter_map]
  exact congrArg _ (List.filter_congr fun edge _ => placement.sends_dual rank edge)

/-- Entries of degrees are told by the endpoints. -/
theorem Degrees.ofRecord_congr {transposed : Bool} {left right : EdgeRecord}
    (same : left.ends = right.ends) : ofRecord transposed left = ofRecord transposed right := by
  unfold ofRecord
  rw [EdgeRecord.major_congr same, EdgeRecord.minor_congr same]

/-- A record counts for the same endpoint as its reverse does in the other orientation. -/
theorem Degrees.ofRecord_reversed (transposed : Bool) (record : EdgeRecord) :
    ofRecord (!transposed) record.reversed = ofRecord transposed record := by
  unfold ofRecord
  rw [EdgeRecord.major_reversed, EdgeRecord.minor_reversed]

section Records

variable {edges others : Fin size → List Edge} {records otherRecords : List EdgeRecord}
  {all : List PlacedEdge} (stand : EdgeRecord.StandFor edges records all)
  (turned : EdgeRecord.StandFor others otherRecords (all.map PlacedEdge.reversed))

include stand turned

/-- Records of edges and records of their reverses have each other's endpoints. -/
theorem EdgeRecord.StandFor.ends_perm : (otherRecords.map EdgeRecord.ends).Perm
    ((records.map EdgeRecord.reversed).map EdgeRecord.ends) := by
  -- Both lists stand for the same edges, of which the one is turned around.
  have left := turned.perm.map PlacedEdge.ends
  have right := (stand.perm.map PlacedEdge.reversed).map PlacedEdge.ends
  simp only [List.map_map] at left right ⊢
  exact left.trans right.symm

/-- Whatever is read off the endpoints of records is read off the reverses as well. -/
theorem EdgeRecord.StandFor.map_perm {α : Type} {read otherRead : EdgeRecord → α}
    (alike : ∀ left right : EdgeRecord, left.ends = right.ends → otherRead left = otherRead right)
    (dual : ∀ record : EdgeRecord, otherRead record.reversed = read record) :
    (otherRecords.map otherRead).Perm (records.map read) := by
  have reads := EdgeRecord.map_perm_of_ends otherRead alike (stand.ends_perm turned)
  rw [List.map_map] at reads
  exact reads.trans (List.Perm.of_eq (List.map_congr_left fun record _ => dual record))

/-- Records of edges and records of their reverses are sorted alike in opposite orientations. -/
theorem EdgeRecord.StandFor.sorted_dual {sorter other : Sorter} (lawful : sorter.Lawful)
    (otherLawful : other.Lawful) (distinct : Reference.Distinct all) (transposed : Bool) :
    (other.records (!transposed) otherRecords).map EdgeRecord.toEdge =
      ((sorter.records transposed records).map EdgeRecord.reversed).map EdgeRecord.toEdge := by
  -- Edges in order, each turned around, are in the order of the other orientation.
  have sorted : ((sorter.records transposed records).map (placed edges)).map PlacedEdge.reversed =
      (all.map PlacedEdge.reversed).mergeSort (PlacedEdge.precedes (!transposed)) := by
    apply Reference.eq_mergeSort_of_sorted distinct.reversed
    · exact (((lawful.records_perm _ _).map _).trans stand.perm).map _
    · refine List.pairwise_map.mpr ((placed_sorted lawful transposed stand.genuine).imp ?_)
      intro left right before
      rw [PlacedEdge.precedes_reversed]
      exact before
  have same := (turned.map_sorted_eq otherLawful distinct.reversed (!transposed)).trans sorted.symm
  have edges := congrArg (List.map PlacedEdge.edge) same
  simp only [List.map_map] at edges ⊢
  exact edges

end Records

/-- The same rows, held to be those of the other orientation. -/
def View.dual (view : View size) : View size :=
  -- Segments do not tell which endpoint their rows belong to.
  { view with transposed := !view.transposed }

/-- Ranks that own the reverses of edges come to the rows that the edges have in the other orientation. -/
theorem View.Built.dual {members others : Fin size → Member size}
    {records otherRecords : Fin size → List EdgeRecord}
    {partition : Partition size} {transposed : Bool} {budget : Option UInt64} {views : Fin size → View size}
    (built : View.Built members records partition transposed budget views)
    (memory : ∀ rank, (others rank).memory = (members rank).memory)
    (lawful : ∀ rank, (members rank).sorter.Lawful) (otherLawful : ∀ rank, (others rank).sorter.Lawful)
    (sorted : ∀ rank, ((others rank).sorter.records (!transposed) (otherRecords rank)).map EdgeRecord.toEdge =
      (((members rank).sorter.records transposed (records rank)).map EdgeRecord.reversed).map
        EdgeRecord.toEdge) :
    View.Built others otherRecords partition (!transposed) budget fun rank => (views rank).dual := by
  -- The dual of a view differs in its orientation only.
  have same : (fun rank => (views rank).dual) = fun rank => { views rank with transposed := !transposed } := by
    funext rank
    rw [View.dual, built.transposed_eq]
  rw [same]
  exact built.storedAlike (EdgeRecord.reversed_storedAlike transposed) memory lawful otherLawful sorted

/-- What a rank keeps, held to be of the other orientation. -/
def Constructed.dual (constructed : Constructed size) : Constructed size :=
  -- Ids and their owners do not depend on the orientation.
  { constructed with view := constructed.view.dual }

namespace Construction

open DistGraph.Numbering (Agreement newOf)

/-- The edges of every rank, each turned around in its place. -/
def turnedAround (edges : Fin size → List Edge) (rank : Fin size) : List Edge :=
  -- Attributes stay as they are.
  (edges rank).map Edge.reversed

variable (options : Options) (edges : Fin size → List Edge)

/-- Turned around rank by rank, all edges are turned around. -/
@[simp] theorem everything_turnedAround :
    everything (turnedAround edges) = (everything edges).map Edge.reversed :=
  (map_everything _ _).symm

/-- Turning edges around keeps their number. -/
@[simp] theorem length_turnedAround (rank : Fin size) :
    (turnedAround edges rank).length = (edges rank).length :=
  List.length_map _

/-- Reverses are handed in in the places of the edges. -/
theorem handedIn_dual (rank : Fin size) : handedIn options.dual (turnedAround edges) rank =
    (handedIn options edges rank).map EdgeRecord.reversed := by
  unfold handedIn turnedAround
  rw [EdgeRecord.ofEdges_reversed]
  -- Self-loops are dropped of the reverses as of the edges.
  split
  · rw [if_pos ‹_›]
    unfold Cleanup.withoutSelfLoops
    rw [List.filter_map]
    refine congrArg _ (List.filter_congr fun record _ => ?_)
    rw [Function.comp_apply, EdgeRecord.isSelfLoop_reversed]
  · rw [if_neg ‹_›]

/-- Reverses meet where the edges meet in the other orientation. -/
theorem meeting_dual (otherwise : Placement) :
    meeting options.dual otherwise.dual = (meeting options otherwise).dual := by
  unfold meeting
  cases adds : options.addReverses <;> simp [Options.dual, adds, Placement.dual]

/-- The reverses are cleaned up into the reverses of what the edges are. -/
theorem processed_dual : Reference.processed options.dual (everything (turnedAround edges)) =
    (Reference.processed options (everything edges)).map PlacedEdge.reversed := by
  rw [everything_turnedAround]
  exact Reference.processed_reversed options _

/-- Edges that are accepted are accepted turned around. -/
theorem Accepted.dual {vertices : Fin size → List VertexId} (accepted : Accepted edges vertices options) :
    Accepted (turnedAround edges) vertices options.dual := by
  have ends : ∀ (edges : List Edge) id, id ∈ endpoints (edges.map Edge.reversed) ↔ id ∈ endpoints edges := by
    intro edges id
    simp only [mem_endpoints, List.mem_map, exists_exists_and_eq_and]
    exact exists_congr fun edge => and_congr_right fun _ => or_comm
  refine ⟨fun rank => ?_, accepted.once, fun checks lists vertex member => ?_⟩
  · -- Weights stay with their edges, and endpoints only change places.
    obtain ⟨finite, below⟩ := checkOwn_eq_ok_iff.mp (accepted.own rank)
    refine checkOwn_eq_ok_iff.mpr ⟨fun edge member => ?_, fun limit given id member => ?_⟩
    · obtain ⟨origin, held, rfl⟩ := List.mem_map.mp member
      exact finite origin held
    · rw [List.mem_append, turnedAround, ends, ← List.mem_append] at member
      exact below limit given id member
  · rw [everything_turnedAround, ends] at member
    exact accepted.listed checks lists vertex member

/-- A rank names the same ids. -/
theorem mem_named_dual {vertices : Fin size → List VertexId} (rank : Fin size) (id : VertexId) :
    id ∈ named (handedIn options.dual (turnedAround edges) rank) (vertices rank) ↔
      id ∈ named (handedIn options edges rank) (vertices rank) := by
  -- A reverse names the same two ids.
  unfold named
  rw [handedIn_dual, List.flatMap_map, List.mem_append, List.mem_append]
  refine or_congr_left ?_
  simp only [List.mem_flatMap, List.mem_cons, List.not_mem_nil, or_false]
  exact exists_congr fun record => and_congr_right fun _ => or_comm

/-- Reverses call for the same number of vertices. -/
theorem vertexTotal_dual (vertices : Fin size → List VertexId) :
    vertexTotal options.dual (handedIn options.dual (turnedAround edges)) vertices =
      vertexTotal options (handedIn options edges) vertices := by
  -- The least number above all ids does not depend on the order in which they are named.
  have bounds : ∀ rank, leastAbove (named (handedIn options.dual (turnedAround edges) rank) (vertices rank)) =
      leastAbove (named (handedIn options edges rank) (vertices rank)) :=
    fun rank => leastAbove_congr (mem_named_dual options edges rank)
  unfold vertexTotal
  simp only [bounds]
  rfl

variable {options edges} {members others : Fin size → Member size}
  (memory : ∀ rank, (others rank).memory = (members rank).memory)
  (lawful : ∀ rank, (members rank).sorter.Lawful) (otherLawful : ∀ rank, (others rank).sorter.Lawful)

include memory in
/-- Reverses can be delivered where the edges can. -/
theorem deliverable_dual {placement : Placement}
    (deliverable : Routing.Deliverable members Wire.record (placement.destination size) (handedIn options edges)) :
    Routing.Deliverable others Wire.record (placement.dual.destination size)
      (handedIn options.dual (turnedAround edges)) := by
  refine deliverable.of_map_perm memory fun rank => List.Perm.of_eq ?_
  rw [handedIn_dual, List.map_map]
  exact List.map_congr_left fun record _ => placement.destination_dual size record

include memory lawful otherLawful in
/-- Ranks that are admitted with edges are admitted with the reverses. -/
theorem Admitted.dual {vertices : Fin size → List VertexId}
    (admitted : Admitted members edges vertices options) :
    Admitted others (turnedAround edges) vertices options.dual := by
  -- Sorted and reduced, the endpoints that a rank asks about are the same.
  have asks : ∀ rank, asked others (turnedAround edges) rank = asked members edges rank := by
    intro rank
    unfold asked
    refine congrArg distinct ((otherLawful rank).vertices_eq (lawful rank) ?_)
    unfold endpoints turnedAround
    rw [List.flatMap_map]
    exact List.Perm.flatMap_left _ fun edge _ => List.Perm.swap _ _ []
  refine ⟨admitted.accepted.dual, fun checks lists => ?_, fun rank => ?_⟩
  · obtain ⟨listed, used⟩ := admitted.comparable checks lists
    exact ⟨listed.of_map_perm memory fun _ => .refl _,
      used.of_map_perm memory fun rank => List.Perm.of_eq (by rw [asks])⟩
  · rw [length_turnedAround, Member.makeRoom_congr (memory rank)]
    exact admitted.recorded rank

section Routes

variable (ranks : size ≤ UInt32.size) (short : ∀ rank, (edges rank).length < UInt64.size)

include ranks short otherLawful

/-- What a rank cleans up of the reverses stands for the reverses of the edges that meet there. -/
theorem cleaned_dual_standFor (otherwise : Placement) (rank : Fin size) :
    EdgeRecord.StandFor (turnedAround edges)
      (cleaned options.dual others otherwise.dual (handedIn options.dual (turnedAround edges)) rank)
      (((Reference.processed options (everything edges)).filter
        ((meeting options otherwise).sends rank)).map PlacedEdge.reversed) := by
  have stand := cleaned_standFor options.dual otherLawful otherwise.dual ranks
    (fun rank => length_turnedAround edges rank ▸ short rank) rank
  rwa [processed_dual, meeting_dual, filter_sends_dual] at stand

/-- What a rank owns of the reverses stands for the reverses of the edges that it owns in the other
orientation. -/
theorem owned_dual_standFor (partition : Partition size) (rank : Fin size) :
    EdgeRecord.StandFor (turnedAround edges)
      (owned options.dual others (handedIn options.dual (turnedAround edges)) partition rank)
      (((Reference.processed options (everything edges)).filter
        ((Placement.byOwner partition options.transposed).sends rank)).map PlacedEdge.reversed) := by
  -- What is owned of any edges stands for them, of which the reverses are one case.
  have stand := owned_standFor options.dual partition ranks
    (fun rank => length_turnedAround edges rank ▸ short rank) otherLawful rank
  rwa [processed_dual, show Placement.byOwner partition options.dual.transposed =
    (Placement.byOwner partition options.transposed).dual from rfl, filter_sends_dual] at stand

/-- What reaches the owner of new ids of the reverses stands for the reverses of what reaches it in the other
orientation. -/
theorem arrived_dual_standFor (agreement : Agreement size) (rank : Fin size) :
    EdgeRecord.StandFor (turnedAround edges)
      (arrived options.dual others (handedIn options.dual (turnedAround edges)) agreement rank)
      ((((Reference.processed options (everything edges)).map
        (PlacedEdge.renamed (newOf agreement.parts))).filter
          ((Placement.byOwner agreement.partition options.transposed).sends rank)).map
            PlacedEdge.reversed) := by
  have stand := (relabelled_standFor options.dual ranks
    (fun rank => length_turnedAround edges rank ▸ short rank) otherLawful rank agreement).bound
      (Placement.byOwner agreement.partition options.transposed).dual rank
  -- Turning around and renaming are done to an edge independently.
  have renamed : ∀ all : List PlacedEdge,
      (all.map PlacedEdge.reversed).map (PlacedEdge.renamed (newOf agreement.parts)) =
        (all.map (PlacedEdge.renamed (newOf agreement.parts))).map PlacedEdge.reversed := by
    intro all
    rw [List.map_map, List.map_map]
    rfl
  rw [processed_dual, renamed, filter_sends_dual] at stand
  exact stand

include lawful

/-- What is read off the endpoints of cleaned up records is read off the cleaned up reverses as well. -/
theorem cleaned_dual_perm {α : Type} {read otherRead : EdgeRecord → α}
    (alike : ∀ left right : EdgeRecord, left.ends = right.ends → otherRead left = otherRead right)
    (dual : ∀ record : EdgeRecord, otherRead record.reversed = read record) (otherwise : Placement)
    (rank : Fin size) :
    ((cleaned options.dual others otherwise.dual (handedIn options.dual (turnedAround edges)) rank).map
        otherRead).Perm
      ((cleaned options members otherwise (handedIn options edges) rank).map read) :=
  (cleaned_standFor options lawful otherwise ranks short rank).map_perm
    (cleaned_dual_standFor otherLawful ranks short otherwise rank) alike dual

include memory

/-- Reverses can move to the owners of given ids where the edges can. -/
theorem Movable.dual {partition : Partition size}
    (movable : Movable options members (handedIn options edges) partition) :
    Movable options.dual others (handedIn options.dual (turnedAround edges)) partition := by
  -- Both deliveries see records up to their order, at destinations that are the same for reverses.
  let owner := Placement.byOwner partition options.transposed
  refine ⟨?_, fun adds => ?_⟩
  · have meet := deliverable_dual memory movable.meet
    rwa [← meeting_dual] at meet
  · exact (movable.settle adds).of_map_perm memory fun rank => cleaned_dual_perm lawful otherLawful ranks
      short owner.dual.destination_congr_ends (owner.destination_dual size) owner rank

/-- Ranks that are given the reverses come to the same agreement on new ids. -/
theorem Renumbered.dual {vertices : Fin size → List VertexId} {agreement : Agreement size}
    (renumbered : Renumbered options members (handedIn options edges) vertices agreement) :
    Renumbered options.dual others (handedIn options.dual (turnedAround edges)) vertices agreement := by
  let hashed := Placement.byHash options.transposed
  let owner := Placement.byOwner agreement.partition options.transposed
  refine ⟨?_, renumbered.assigned.congr memory lawful otherLawful fun rank => ?_, ?_⟩
  · have meet := deliverable_dual memory renumbered.meet
    rwa [← meeting_dual] at meet
  · -- Every record and its reverse count for the same vertices.
    have counts : ((tidied options.dual others (handedIn options.dual (turnedAround edges)) rank).map
        (Degrees.ofRecord (!options.transposed))).Perm
          ((tidied options members (handedIn options edges) rank).map
            (Degrees.ofRecord options.transposed)) :=
      cleaned_dual_perm lawful otherLawful ranks short (fun _ _ => Degrees.ofRecord_congr)
        (Degrees.ofRecord_reversed options.transposed) hashed rank
    have shares := counts.flatten
    rw [← List.flatMap_def, ← List.flatMap_def] at shares
    exact shares.append_right _
  · -- A relabelled record and its reverse have the same owner.
    refine renumbered.settle.of_map_perm memory fun rank => ?_
    unfold relabelled
    rw [List.map_map, List.map_map]
    refine cleaned_dual_perm lawful otherLawful ranks short (fun left right same => ?_)
      (fun record => ?_) hashed rank
    · refine owner.dual.destination_congr_ends _ _ ?_
      exact congrArg (fun ends : VertexId × VertexId =>
        (newOf agreement.parts ends.1, newOf agreement.parts ends.2)) same
    · exact owner.destination_dual size (record.renamed (newOf agreement.parts))

end Routes

/-- If ranks construct a graph, ranks with the same memory that are given the reverses construct the graph
with the same rows in the other orientation. -/
theorem together_dual (crew other : Crew size) (someone : Fin size) (ranks : size ≤ UInt32.size)
    (memory : ∀ rank, (other.members rank).memory = (crew.members rank).memory)
    (edges : Fin size → List Edge) (vertices : Fin size → List VertexId) (options : Options)
    {constructed : Fin size → Constructed size}
    (together : Together (fun rank => construct (crew.members rank) (edges rank) (vertices rank) options)
      constructed) :
    Together (fun rank => construct (other.members rank) (turnedAround edges rank) (vertices rank)
      options.dual) fun rank => (constructed rank).dual := by
  have distinct := Reference.processed_distinct options (everything edges)
  cases renumbers : options.renumber with
  | false =>
    obtain ⟨partition, shared, -⟩ := Partition.exists_even
      (vertexTotal options (handedIn options edges) vertices) (Nat.ne_of_gt someone.pos)
    obtain ⟨admitted, bounded, movable, views, built, rfl⟩ :=
      (construct_computes_shared crew edges vertices renumbers shared).together_iff.mp together
    -- The same ids are named, so that the same partition is shared.
    rw [← vertexTotal_dual] at shared
    have short := fun rank => length_lt_of_makeRoom (admitted.recorded rank)
    have keeps : options.dual.renumber = false := renumbers
    refine (construct_computes_shared other (turnedAround edges) vertices keeps shared).together_iff.mpr
      ⟨admitted.dual memory crew.lawful other.lawful, ?_,
        movable.dual memory crew.lawful other.lawful ranks short, _, ?_, rfl⟩
    · intro absent rank id member
      exact bounded absent rank id ((mem_named_dual options edges rank id).mp member)
    · exact built.dual memory crew.lawful other.lawful fun rank =>
        (owned_standFor options partition ranks short crew.lawful rank).sorted_dual
          (owned_dual_standFor other.lawful ranks short partition rank) (crew.lawful rank)
          (other.lawful rank) (distinct.filter _) options.transposed
  | true =>
    obtain ⟨admitted, agreement, renumbered, views, built, rfl⟩ :=
      (construct_computes_newIds crew someone edges vertices renumbers).together_iff.mp together
    have short := fun rank => length_lt_of_makeRoom (admitted.recorded rank)
    -- The agreement is the same, as degrees and vertices are.
    have restored := (restores ranks short crew.lawful someone renumbered.assigned.agreed).distinct distinct
    have changes : options.dual.renumber = true := renumbers
    refine (construct_computes_newIds other someone (turnedAround edges) vertices
      changes).together_iff.mpr ⟨admitted.dual memory crew.lawful other.lawful, agreement,
        renumbered.dual memory crew.lawful other.lawful ranks short, _, ?_, rfl⟩
    exact built.dual memory crew.lawful other.lawful fun rank =>
      ((relabelled_standFor options ranks short crew.lawful someone agreement).bound _ rank).sorted_dual
        (arrived_dual_standFor other.lawful ranks short agreement rank) (crew.lawful rank)
        (other.lawful rank) (restored.filter _) options.transposed

/-- However the ranks take turns, if they construct a graph, then ranks with the same memory that are given
every edge turned around in its place construct, in the other orientation, a graph with the same vertices,
owners, new ids, segments, rows and number of edges. Ranks without a limit that can count what they exchange
do construct both if what they are given is accepted. A record has 32 bits for the rank that it comes from,
and no memory has mailboxes for more ranks than that. -/
theorem construct_dual (crew other : Crew size) (occupied : 0 < size) (ranks : size ≤ UInt32.size)
    (memory : ∀ rank, (other.members rank).memory = (crew.members rank).memory)
    (edges : Fin size → List Edge) (vertices : Fin size → List VertexId) (options : Options)
    (run : Cluster.Run (Vector.ofFn fun rank =>
      construct (crew.members rank) (edges rank) (vertices rank) options))
    (dualRun : Cluster.Run (Vector.ofFn fun rank =>
      construct (other.members rank) ((edges rank).map Edge.reversed) (vertices rank)
        { options with transposed := !options.transposed })) :
    (∀ constructed : Fin size → Constructed size,
      (∀ rank, run.outcome rank = some (.ok (constructed rank))) →
      ∀ rank, dualRun.outcome rank = some (.ok (constructed rank).dual)) ∧
    ((∀ rank, (crew.members rank).memory = none) → Accepted edges vertices options →
      (options.renumber = false → Bounded options (handedIn options edges) vertices) →
      Countable crew.members options edges vertices →
      ∃ constructed : Fin size → Constructed size,
        (∀ rank, run.outcome rank = some (.ok (constructed rank))) ∧
        ∀ rank, dualRun.outcome rank = some (.ok (constructed rank).dual)) := by
  -- The other ranks compute the duals of what these construct, whatever the order of their turns.
  have dual : ∀ constructed : Fin size → Constructed size,
      (∀ rank, run.outcome rank = some (.ok (constructed rank))) →
      ∀ rank, dualRun.outcome rank = some (.ok (constructed rank).dual) := by
    intro constructed ends
    exact dualRun.together_iff.mpr (together_dual crew other ⟨0, occupied⟩ ranks memory edges vertices
      options (run.together_iff.mp ends))
  refine ⟨dual, fun free accepted bounded countable => ?_⟩
  obtain ⟨constructed, ends⟩ :=
    exists_constructed_of_accepted crew occupied free accepted bounded countable run
  exact ⟨constructed, ends, dual constructed ends⟩

/-- Two ranks with parallel edges and a list of vertices group the reverses by destination as they group the
edges by source, on new ids. -/
theorem construct_dual_sample :
    let options : Options := { sampleOptions with renumber := true, mergePolicy := .keepAll }
    let crew : Crew 2 := Crew.stable fun _ => none
    let listed : Fin 2 → List VertexId := ![[2, 0], [1, 5]]
    ∃ (run : Cluster.Run (Vector.ofFn fun rank : Fin 2 =>
        construct (crew.members rank) (sampleEdges rank) (listed rank) options))
      (dualRun : Cluster.Run (Vector.ofFn fun rank : Fin 2 =>
        construct (crew.members rank) ((sampleEdges rank).map Edge.reversed) (listed rank)
          { options with transposed := true }))
      (constructed : Fin 2 → Constructed 2),
      (∀ rank, run.outcome rank = some (.ok (constructed rank))) ∧
      ∀ rank, dualRun.outcome rank = some (.ok (constructed rank).dual) := by
  intro options crew listed
  obtain ⟨run⟩ := Cluster.Run.exists_of_programs (Vector.ofFn fun rank : Fin 2 =>
    construct (crew.members rank) (sampleEdges rank) (listed rank) options)
  obtain ⟨dualRun⟩ := Cluster.Run.exists_of_programs (Vector.ofFn fun rank : Fin 2 =>
    construct (crew.members rank) ((sampleEdges rank).map Edge.reversed) (listed rank)
      { options with transposed := true })
  -- The lists have all endpoints, which is decided on the edges themselves.
  have named : (endpoints (everything sampleEdges)).all (everything listed).contains = true := by decide
  have accepted : Accepted sampleEdges listed options := by
    refine ⟨by decide, fun _ => by decide, fun _ _ vertex member => ?_⟩
    exact List.contains_iff_mem.mp (List.all_eq_true.mp named vertex member)
  exact ⟨run, dualRun, (construct_dual crew crew (by decide) (by decide) (fun _ => rfl) sampleEdges listed
    options run dualRun).2 (fun _ => rfl) accepted (fun keeps => by cases keeps)
    (.of_few crew.lawful (by decide))⟩

end Construction

end DistGraph
