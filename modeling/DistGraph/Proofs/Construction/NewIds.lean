import DistGraph.Proofs.Construction.Frame
import DistGraph.Proofs.Construction.Listing
import DistGraph.Proofs.Numbering.Assign

/-! A graph on new ids has the edges of the reference list between the vertices that they stand for. -/

namespace DistGraph.Construction

open DistGraph.Numbering (Agreed Agreement Assigned labelsOf newOf oldOf part)

variable {size : Nat} {edges : Fin size → List Edge} {vertices : Fin size → List VertexId}
  {members : Fin size → Member size}

section Stages

variable (options : Options) (members : Fin size → Member size) (records : Fin size → List EdgeRecord)
  (vertices : Fin size → List VertexId) (agreement : Agreement size)

/-- The records of which a rank names the vertices. -/
def tidied : Fin size → List EdgeRecord :=
  cleaned options members (.byHash options.transposed) records

/-- The records of a rank on new ids. -/
def relabelled (rank : Fin size) : List EdgeRecord :=
  (tidied options members records rank).map (EdgeRecord.renamed (newOf agreement.parts))

/-- The records that a rank holds as the owner of new ids. -/
def arrived (rank : Fin size) : List EdgeRecord :=
  Grouping.bound ((Placement.byOwner agreement.partition options.transposed).destination size)
    (everything (relabelled options members records agreement)) rank

/-- Whether the records that ranks hold get to the owners of new ids. -/
structure Renumbered : Prop where
  /-- All records reach the rank on which they are cleaned up. -/
  meet : Routing.Deliverable members Wire.record
    ((meeting options (.byHash options.transposed)).destination size) records
  /-- All vertices get new ids. -/
  assigned : Assigned members (tidied options members records) vertices options.order
    options.transposed agreement
  /-- Relabelled records reach their owners. -/
  settle : Routing.Deliverable members Wire.record
    ((Placement.byOwner agreement.partition options.transposed).destination size)
    (relabelled options members records agreement)

/-- How a rank goes on once vertices have new ids. -/
def moveAnew (self : Member size) (assigned : Numbering size × List EdgeRecord) :
    Program size Failure (Constructed size) := do
  -- The partition comes with the new ids.
  let partition := assigned.1.partition
  let placed ← Routing.sendRecords self (.byOwner partition options.transposed) assigned.2
  let view ← View.build self placed partition options.transposed options.segmentBudget
  return ⟨view, assigned.1, partition⟩

/-- On new ids ranks clean up, number the vertices and move records to the owners of their new ids. -/
theorem onNewIds_eq (self : Member size) (records : List EdgeRecord) (vertices : List VertexId) :
    onNewIds self records vertices options =
      (gatherParallel self options (.byHash options.transposed) records >>= fun clean =>
        Numbering.assign self clean vertices options.order options.transposed >>=
          moveAnew options self) := rfl

/-- What ranks keep of a graph whose vertices have the new ids that they agree on. -/
def keptAnew (agreement : Agreement size) (views : Fin size → View size) (rank : Fin size) :
    Constructed size :=
  ⟨views rank, agreement.parts rank, agreement.partition⟩

/-- Relabelled records are sent to their owners and stored there. -/
theorem moveAnew_eq (self : Member size) (rank : Fin size) (records : List EdgeRecord) :
    moveAnew options self (agreement.parts rank, records) =
      (Routing.sendRecords self (.byOwner agreement.partition options.transposed) records >>=
        fun placed =>
        View.build self placed agreement.partition options.transposed options.segmentBudget >>=
        fun view => pure ⟨view, agreement.parts rank, agreement.partition⟩) := rfl

variable {members records vertices}

/-- Relabelled records are placed before they are stored. -/
theorem moveAnew_computes (ranked : ∀ rank, (members rank).rank = rank) :
    Computes (fun rank => moveAnew options (members rank)
        (agreement.parts rank, relabelled options members records agreement rank)) fun results =>
      Routing.Deliverable members Wire.record
        ((Placement.byOwner agreement.partition options.transposed).destination size)
        (relabelled options members records agreement) ∧
      ∃ views, View.Built members (arrived options members records agreement) agreement.partition
          options.transposed options.segmentBudget views ∧
        results = keptAnew agreement views := by
  simp only [moveAnew_eq]
  -- What has arrived is stored under the partition that was agreed on.
  have stored : Computes (fun rank => View.build (members rank)
        (arrived options members records agreement rank) agreement.partition options.transposed
        options.segmentBudget >>= fun view =>
        (pure ⟨view, agreement.parts rank, agreement.partition⟩ :
          Program size Failure (Constructed size)))
      fun results => ∃ views, View.Built members (arrived options members records agreement)
          agreement.partition options.transposed options.segmentBudget views ∧
        results = keptAnew agreement views :=
    Computes.bind _ (View.build_computes ranked) fun views _ => Computes.pure _
  exact (Routing.sendRecords_computes members (.byOwner agreement.partition options.transposed)
    (relabelled options members records agreement)).afterIf _ fun _ => stored

/-- What the ranks come to when they give out new ids. -/
theorem onNewIds_computes (ranked : ∀ rank, (members rank).rank = rank)
    (lawful : ∀ rank, (members rank).sorter.Lawful) (someone : Fin size) :
    Computes (fun rank => onNewIds (members rank) (records rank) (vertices rank) options)
      fun results => ∃ agreement, Renumbered options members records vertices agreement ∧
        ∃ views, View.Built members (arrived options members records agreement) agreement.partition
            options.transposed options.segmentBudget views ∧
          results = keptAnew agreement views := by
  simp only [onNewIds_eq]
  -- The agreement comes out of the second step, and all that follows is about it.
  refine Computes.congr ((gatherParallel_computes options (.byHash options.transposed) records).afterIf _
    fun _ => Computes.afterSome _ (Numbering.assign_computes ranked lawful someone)
      fun agreement _ => moveAnew_computes options agreement ranked) fun results => ?_
  constructor
  · intro ⟨meet, agreement, assigned, settle, views⟩
    exact ⟨agreement, ⟨meet, assigned, settle⟩, views⟩
  · intro ⟨agreement, renumbered, views⟩
    exact ⟨renumbered.meet, agreement, renumbered.assigned, renumbered.settle, views⟩

end Stages

/-- As soon as there is a rank, every record has one to be cleaned up on. -/
theorem exists_meeting (options : Options) (someone : Fin size) (record : EdgeRecord) :
    ∃ rank : Fin size,
      (meeting options (.byHash options.transposed)).destination size record = .ok rank.val := by
  -- Records meet by their pairs if reverses are added, and by the hash of an endpoint otherwise.
  unfold meeting
  split
  · exact Placement.exists_destination_byPair someone record
  · exact Placement.exists_destination_byHash someone options.transposed record

section Edges

variable (options : Options) {agreement : Agreement size} (ranks : size ≤ UInt32.size)
  (short : ∀ rank, (edges rank).length < UInt64.size)
  (lawful : ∀ rank, (members rank).sorter.Lawful) (someone : Fin size)

include ranks short lawful someone

/-- Records that are cleaned up before they get new ids stand for all edges of the graph. -/
theorem tidied_standFor : EdgeRecord.StandFor edges
    (everything (tidied options members (handedIn options edges)))
    (Reference.processed options (everything edges)) :=
  everything_cleaned_standFor options lawful _ ranks short (exists_meeting options someone)

/-- Relabelled records stand for all edges on new ids. -/
theorem relabelled_standFor (agreement : Agreement size) : EdgeRecord.StandFor edges
    (everything (relabelled options members (handedIn options edges) agreement))
    ((Reference.processed options (everything edges)).map
      (PlacedEdge.renamed (newOf agreement.parts))) := by
  -- Renaming all records is renaming those of each rank.
  have same : everything (relabelled options members (handedIn options edges) agreement) =
      (everything (tidied options members (handedIn options edges))).map
        (EdgeRecord.renamed (newOf agreement.parts)) := (map_everything _ _).symm
  rw [same]
  exact (tidied_standFor options ranks short lawful someone).renamed _

variable {options} (agreed : Agreed members (tidied options members (handedIn options edges)) vertices
  options.order options.transposed agreement)

include agreed

/-- The labels are the vertices of the graph. -/
theorem mem_labels_iff {old : VertexId} : old ∈ everything (labelsOf agreement.owned) ↔
    old ∈ Reference.vertices options (everything edges) (everything vertices) := by
  -- Labels are endpoints of records or listed, and the records stand for the edges.
  have stand := tidied_standFor options ranks short lawful someone
  rw [agreed.entries.mem_everything_owned_iff lawful, Reference.mem_vertices_iff]
  refine or_congr_left ?_
  constructor
  · intro ⟨record, held, ends⟩
    exact ⟨_, stand.perm.subset (List.mem_map_of_mem held), ends⟩
  · intro ⟨placed, member, ends⟩
    obtain ⟨record, held, rfl⟩ := List.mem_map.mp (stand.perm.symm.subset member)
    exact ⟨record, held, ends⟩

/-- The endpoints of all edges can be told from their new ids. -/
theorem restores : Reference.Restores (oldOf agreement.parts) (newOf agreement.parts)
    (Reference.processed options (everything edges)) := by
  intro placed member
  have labels := agreed.labels lawful
  obtain ⟨src, dst⟩ := Reference.ends_mem_vertices (everything vertices) member
  -- Endpoints are vertices of the graph, and vertices have labels.
  have known : ∀ old ∈ Reference.vertices options (everything edges) (everything vertices),
      oldOf agreement.parts (newOf agreement.parts old) = old :=
    fun old vertex => labels.oldOf_newOf
      ((mem_labels_iff ranks short lawful someone agreed).mpr vertex)
  exact ⟨known _ src, known _ dst⟩

end Edges

/-- The old and new ids that all ranks keep. -/
def keptPairs (constructed : Fin size → Constructed size) : List (VertexId × VertexId) :=
  everything fun rank => (constructed rank).numbering.pairs

/-- Whether what ranks keep is the graph of edges and listed vertices on new ids. -/
structure ShowsOnNewIds (options : Options) (edges : List Edge) (listed : List VertexId)
    (constructed : Fin size → Constructed size) : Prop where
  /-- No old id is kept twice. -/
  olds : ((keptPairs constructed).map Prod.fst).Nodup
  /-- No new id is kept twice. -/
  news : ((keptPairs constructed).map Prod.snd).Nodup
  /-- The old ids are the vertices of the graph. -/
  covers : ∀ old, old ∈ (keptPairs constructed).map Prod.fst ↔
    old ∈ Reference.vertices options edges listed
  /-- The owner of a new id keeps its old id, and lists the edges of that in order. -/
  lists : ∀ (asked : Fin size) (new : VertexId), new < (constructed asked).partition.vertexCount →
    ∃ owner old, (constructed asked).partition.owner? new = some owner ∧
      (old, new) ∈ (constructed owner).numbering.pairs ∧
      ((constructed owner).view.edgesAt new).map
          (Edge.renamed (oldOf fun rank => (constructed rank).numbering)) =
        Reference.edgesOf options (newOf fun rank => (constructed rank).numbering) edges old
  /-- Edges lie between new ids. -/
  ends : ∀ rank, ∀ edge ∈ (constructed rank).view.edges,
    edge.src ∈ (keptPairs constructed).map Prod.snd ∧ edge.dst ∈ (keptPairs constructed).map Prod.snd
  /-- All ranks together have the edges of the graph. -/
  all : ((everything fun rank => (constructed rank).view.edges).map
      (Edge.renamed (oldOf fun rank => (constructed rank).numbering))).Perm
    ((Reference.processed options edges).map PlacedEdge.edge)

section Shown

variable {options : Options} {agreement : Agreement size} (ranks : size ≤ UInt32.size)
  (short : ∀ rank, (edges rank).length < UInt64.size)
  (lawful : ∀ rank, (members rank).sorter.Lawful) (someone : Fin size)
  (renumbered : Renumbered options members (handedIn options edges) vertices agreement)
  {views : Fin size → View size}
  (built : View.Built members (arrived options members (handedIn options edges) agreement)
    agreement.partition options.transposed options.segmentBudget views)

include ranks short lawful someone renumbered built

/-- The owner of a new id lists the edges of its old id. -/
theorem map_edgesAt_eq {owner : Fin size} {old new : VertexId}
    (owned : (agreement.partition.spanOf owner).contains new = true)
    (pair : (old, new) ∈ (agreement.parts owner).pairs) :
    ((views owner).edgesAt new).map (Edge.renamed (oldOf agreement.parts)) =
      Reference.edgesOf options (newOf agreement.parts) (everything edges) old := by
  have labels := renumbered.assigned.labels lawful
  have kept : (old, new) ∈ everything fun rank => (agreement.parts rank).pairs :=
    mem_everything.mpr ⟨owner, pair⟩
  -- In the row of the new id are the renamed edges, which are told apart by their old ids.
  have back := restores ranks short lawful someone renumbered.assigned.agreed
  have stand := relabelled_standFor options ranks short lawful someone agreement
  rw [built.edgesAt_eq lawful (stand.bound _ owner)
    (back.distinct (Reference.processed_distinct options (everything edges))) owned]
  exact back.mergeSort_eq options.transposed (labels.newOf_eq kept) (labels.oldOf_eq kept)

/-- All ranks together have the edges of the graph on new ids. -/
theorem everything_edges_perm : (everything fun rank => (views rank).edges).Perm
    (((Reference.processed options (everything edges)).map
      (PlacedEdge.renamed (newOf agreement.parts))).map PlacedEdge.edge) := by
  -- The rows of all ranks list the renamed edges in another order.
  have back := restores ranks short lawful someone renumbered.assigned.agreed
  have stand := relabelled_standFor options ranks short lawful someone agreement
  rw [built.everything_edges_eq lawful (fun rank => stand.bound _ rank) (stand.sent renumbered.settle)
    (back.distinct (Reference.processed_distinct options (everything edges)))]
  exact (List.mergeSort_perm _ _).map _

/-- The edges of all ranks lie between new ids. -/
theorem ends_mem_news {rank : Fin size} {edge : Edge} (member : edge ∈ (views rank).edges) :
    edge.src ∈ (keptPairs (keptAnew agreement views)).map Prod.snd ∧
      edge.dst ∈ (keptPairs (keptAnew agreement views)).map Prod.snd := by
  -- Edges lie between vertices, and every vertex has a new id that some rank keeps.
  have kept : ∀ old ∈ Reference.vertices options (everything edges) (everything vertices),
      newOf agreement.parts old ∈ (keptPairs (keptAnew agreement views)).map Prod.snd := by
    intro old vertex
    have label := (mem_labels_iff ranks short lawful someone renumbered.assigned.agreed).mpr vertex
    obtain ⟨owner, own⟩ := mem_everything.mp label
    have pair := (renumbered.assigned.labels lawful).mem_pairs_newOf own
    exact List.mem_map.mpr ⟨_, mem_everything.mpr ⟨owner, pair⟩, rfl⟩
  have found := (everything_edges_perm ranks short lawful someone renumbered built).subset
    (mem_everything.mpr ⟨rank, member⟩)
  rw [List.map_map] at found
  obtain ⟨placed, held, rfl⟩ := List.mem_map.mp found
  obtain ⟨src, dst⟩ := Reference.ends_mem_vertices (everything vertices) held
  exact ⟨kept _ src, kept _ dst⟩

/-- What ranks keep that have given out new ids is the graph on them. -/
theorem keptAnew_shows : ShowsOnNewIds options (everything edges) (everything vertices)
    (keptAnew agreement views) := by
  have labels := renumbered.assigned.labels lawful
  constructor
  · exact labels.olds_nodup
  · exact labels.news_nodup
  · -- The old ids that are kept are the labels of all ranks.
    intro old
    rw [← mem_labels_iff ranks short lawful someone renumbered.assigned.agreed]
    have same : (keptPairs (keptAnew agreement views)).map Prod.fst =
        everything (labelsOf agreement.owned) := by
      unfold keptPairs
      rw [map_everything]
      congr 1
      funext rank
      exact Numbering.Labels.map_fst_pairs _ _ rank
    rw [same]
  · -- A new id has one owner, on which its pair is kept, and its row.
    intro asked new inside
    obtain ⟨owner, owns⟩ := Option.isSome_iff_exists.mp (Partition.owner?_isSome_iff.mpr inside)
    have owned := Partition.owner?_eq_some_iff.mp owns
    obtain ⟨old, pair⟩ := labels.exists_mem_pairs owned
    exact ⟨owner, old, owns, pair, map_edgesAt_eq ranks short lawful someone renumbered built owned pair⟩
  · intro rank edge member
    exact ends_mem_news ranks short lawful someone renumbered built member
  · -- Old ids put back in the place of new ones give the edges of the reference.
    have back := restores ranks short lawful someone renumbered.assigned.agreed
    have onNew := everything_edges_perm ranks short lawful someone renumbered built
    exact (onNew.map _).trans (List.Perm.of_eq back.map_edge)

end Shown

section Success

variable {options : Options} {number : Nat} (ranks : size ≤ UInt32.size)
  (short : ∀ rank, (edges rank).length < UInt64.size)
  (lawful : ∀ rank, (members rank).sorter.Lawful) (someone : Fin size)
  (many : 4 * (everything edges).length + (everything vertices).length ≤ number)
  (holds : ∀ rank, (members rank).Holds number)

include ranks short lawful someone many holds

/-- Ranks that can hold all endpoints of edges and reverses can give out new ids. -/
theorem exists_renumbered : ∃ agreement,
    Renumbered options members (handedIn options edges) vertices agreement := by
  have stand := tidied_standFor options ranks short lawful someone
  have length := Reference.length_processed_le options (everything edges)
  -- Cleaned up records are as many as the edges of the graph, which leaves room for all their endpoints.
  have few : 2 * (everything (tidied options members (handedIn options edges))).length +
      (everything vertices).length ≤ number := by
    rw [stand.length_eq]
    omega
  obtain ⟨agreement, assigned⟩ := @Numbering.exists_assigned size members
    (tidied options members (handedIn options edges)) vertices options.transposed number lawful holds
    few options.order someone
  refine ⟨agreement, ?_, assigned, ?_⟩
  · have kept := Reference.length_kept_le options (everything edges)
    rw [← placed_handedIn options ranks short, List.length_map] at kept
    exact Routing.Deliverable.of_holds (fun record _ => exists_meeting options someone record)
      (by omega) holds
  · -- Relabelled records have owners, since their major endpoints are new ids.
    have onNew := relabelled_standFor options ranks short lawful someone agreement
    apply Routing.Deliverable.of_holds _ (by rw [onNew.length_eq, List.length_map]; omega) holds
    intro record member
    have found := onNew.perm.subset (List.mem_map_of_mem member)
    obtain ⟨placed, held, same⟩ := List.mem_map.mp found
    -- The new id of a vertex lies in the run of the rank that has the vertex for a label.
    have vertex : placed.major options.transposed ∈
        Reference.vertices options (everything edges) (everything vertices) := by
      obtain ⟨src, dst⟩ := Reference.ends_mem_vertices (everything vertices) held
      unfold PlacedEdge.major
      split
      · exact dst
      · exact src
    have label := (mem_labels_iff ranks short lawful someone assigned.agreed).mpr vertex
    obtain ⟨rank, own⟩ := mem_everything.mp label
    have labels := assigned.labels lawful
    refine ⟨rank, Placement.destination_byOwner_iff.mpr ?_⟩
    have major := congrArg (PlacedEdge.major options.transposed) same
    rw [PlacedEdge.major_renamed, EdgeRecord.major_placed] at major
    rw [← major]
    exact labels.contains_of_mem_pairs (labels.mem_pairs_newOf own)

/-- They come to views of the edges on new ids. -/
theorem exists_built_onNewIds {agreement : Agreement size}
    (renumbered : Renumbered options members (handedIn options edges) vertices agreement) :
    ∃ views, View.Built members (arrived options members (handedIn options edges) agreement)
      agreement.partition options.transposed options.segmentBudget views := by
  apply View.exists_built lawful _ _ holds
  · exact Placement.contains_of_bound agreement.partition options.transposed _
  · -- Records that have arrived are as many as the edges of the graph.
    have stand := relabelled_standFor options ranks short lawful someone agreement
    have length := Reference.length_processed_le options (everything edges)
    have all : (everything (arrived options members (handedIn options edges) agreement)).length =
        (everything (relabelled options members (handedIn options edges) agreement)).length :=
      Routing.length_everything_bound renumbered.settle.named
    rw [all, stand.length_eq, List.length_map]
    omega

end Success

/-- What a construction on new ids comes to. -/
theorem construct_computes_newIds (crew : Crew size) (someone : Fin size) (edges : Fin size → List Edge)
    (vertices : Fin size → List VertexId) {options : Options} (renumbers : options.renumber = true) :
    Computes (fun rank => construct (crew.members rank) (edges rank) (vertices rank) options)
      fun results => Admitted crew.members edges vertices options ∧ ∃ agreement,
        Renumbered options crew.members (handedIn options edges) vertices agreement ∧
        ∃ views, View.Built crew.members
            (arrived options crew.members (handedIn options edges) agreement) agreement.partition
            options.transposed options.segmentBudget views ∧
          results = keptAnew agreement views := by
  apply construct_computes options crew.ranked crew.lawful
  · unfold build
    simp only [renumbers, if_true]
    exact onNewIds_computes options crew.ranked crew.lawful someone
  · -- All ranks have the partition of the agreement, so that confirming finds no difference.
    intro _ ⟨agreement, _, views, _, same⟩
    subst same
    exact ⟨agreement.partition.vertexCount, fun rank => rfl⟩

/-- However the ranks take turns, a graph on new ids has the vertices and edges of the reference
list, and is constructed if what the ranks are given is accepted and they can hold it. A record
has 32 bits for the rank that it comes from, and no memory has mailboxes for more ranks than that. -/
theorem newIds_shows (crew : Crew size) (occupied : 0 < size) (ranks : size ≤ UInt32.size)
    (edges : Fin size → List Edge) (vertices : Fin size → List VertexId) (options : Options)
    (renumbers : options.renumber = true)
    (run : Cluster.Run (Vector.ofFn fun rank =>
      construct (crew.members rank) (edges rank) (vertices rank) options)) :
    (∀ constructed : Fin size → Constructed size,
      (∀ rank, run.outcome rank = some (.ok (constructed rank))) →
      ShowsOnNewIds options (everything edges) (everything vertices) constructed) ∧
    (Accepted edges vertices options →
      (∀ rank, (crew.members rank).Holds
        (4 * (everything edges).length + (everything vertices).length)) →
      ∃ constructed : Fin size → Constructed size,
        ∀ rank, run.outcome rank = some (.ok (constructed rank))) := by
  -- Both parts read off what the construction computes: what all ranks have, and when there is something
  -- to have.
  have computes := construct_computes_newIds crew ⟨0, occupied⟩ edges vertices renumbers
  constructor
  · intro constructed ends
    obtain ⟨admitted, agreement, renumbered, views, built, rfl⟩ :=
      computes.together_iff.mp (run.together_iff.mp ends)
    have short := fun rank => length_lt_of_makeRoom (admitted.recorded rank)
    exact keptAnew_shows ranks short crew.lawful ⟨0, occupied⟩ renumbered built
  · intro accepted holds
    have admitted := accepted.admitted crew.lawful (by omega) holds
    have short := fun rank => length_lt_of_makeRoom (admitted.recorded rank)
    obtain ⟨agreement, renumbered⟩ := exists_renumbered ranks short crew.lawful ⟨0, occupied⟩
      (Nat.le_refl _) holds
    obtain ⟨views, built⟩ := exists_built_onNewIds ranks short crew.lawful ⟨0, occupied⟩
      (Nat.le_refl _) holds renumbered
    exact ⟨_, run.together_iff.mpr (computes.together_iff.mpr
      ⟨admitted, agreement, renumbered, views, built, rfl⟩)⟩

/-- Two ranks get from their edges and a list with an isolated vertex to a graph on new ids, in which weights
have been added up. -/
theorem newIds_shows_sample :
    let total := (one.add two).add half
    ∃ (run : Cluster.Run (Vector.ofFn fun rank : Fin 2 =>
        construct ((Crew.stable fun _ => none).members rank) (weightedEdges rank)
          (![[2, 0], [1, 5]] rank) { summing with renumber := true }))
      (constructed : Fin 2 → Constructed 2),
      (∀ rank, run.outcome rank = some (.ok (constructed rank))) ∧
      (∀ old, old ∈ (keptPairs constructed).map Prod.fst ↔ old ∈ [0, 1, 2, 5]) ∧
      ((everything fun rank => (constructed rank).view.edges).map
          (Edge.renamed (oldOf fun rank => (constructed rank).numbering))).Perm
        [⟨0, 1, some total, some 7, none⟩, ⟨1, 0, some total, some 7, none⟩,
          ⟨1, 2, none, some 9, none⟩, ⟨2, 1, none, some 9, none⟩] := by
  intro total
  let options : Options := { summing with renumber := true }
  let listed : Fin 2 → List VertexId := ![[2, 0], [1, 5]]
  obtain ⟨run⟩ := Cluster.Run.exists_of_programs (Vector.ofFn fun rank : Fin 2 =>
    construct ((Crew.stable fun _ => none).members rank) (weightedEdges rank) (listed rank) options)
  obtain ⟨shows, succeeds⟩ := newIds_shows (Crew.stable fun _ => none) (by decide) (by decide)
    weightedEdges listed options rfl run
  have named : (endpoints (everything weightedEdges)).all (everything listed).contains = true := by decide
  have accepted : Accepted weightedEdges listed options := by
    refine ⟨by decide, fun _ => by decide, fun _ _ vertex member => ?_⟩
    exact List.contains_iff_mem.mp (List.all_eq_true.mp named vertex member)
  obtain ⟨constructed, ends⟩ := succeeds accepted (Crew.stable_holds (by decide))
  have graph := shows constructed ends
  -- Renumbering leaves the edges that the reference comes to as they are.
  have edges : Reference.processed options (everything weightedEdges) =
      Reference.processed summing (everything weightedEdges) := rfl
  refine ⟨run, constructed, ends, fun old => ?_, graph.all.trans ?_⟩
  · have vertices : Reference.vertices options (everything weightedEdges) (everything listed) =
        [0, 1, 0, 1, 0, 1, 1, 2, 0, 1, 1, 2, 2, 0, 1, 5] := by decide
    rw [graph.covers, vertices]
    simp only [List.mem_cons, List.not_mem_nil, or_false]
    grind
  · rw [edges, processed_weightedEdges]
    exact (List.Perm.swap _ _ _).cons _

end DistGraph.Construction
