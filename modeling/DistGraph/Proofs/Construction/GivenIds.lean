import DistGraph.Proofs.Construction.Listing
import DistGraph.Proofs.Construction.VertexCount

/-! A graph that keeps its ids has the edges of the reference list, in its order. -/

namespace DistGraph.Construction

variable {size : Nat} {edges : Fin size → List Edge} {vertices : Fin size → List VertexId}
  {members : Fin size → Member size}

section Owners

variable (options : Options) (members : Fin size → Member size) (records : Fin size → List EdgeRecord)
  (partition : Partition size)

/-- The records that ranks hold as owners of their vertices. -/
def owned (rank : Fin size) : List EdgeRecord :=
  -- Records that met as pairs move on to their owners.
  let owner := Placement.byOwner partition options.transposed
  if options.addReverses then
    Grouping.bound (owner.destination size) (everything (cleaned options members owner records)) rank
  else cleaned options members owner records rank

/-- Whether the records that ranks hold can move to where they are needed. -/
structure Movable : Prop where
  /-- All records reach the rank on which they are cleaned up. -/
  meet : Routing.Deliverable members Wire.record
    ((meeting options (.byOwner partition options.transposed)).destination size) records
  /-- Completed records reach their owners. -/
  settle : options.addReverses = true → Routing.Deliverable members Wire.record
    ((Placement.byOwner partition options.transposed).destination size)
    (cleaned options members (.byOwner partition options.transposed) records)

/-- How a rank places the records that it has cleaned up. -/
def moveOn (self : Member size) (clean : List EdgeRecord) : Program size Failure (List EdgeRecord) :=
  -- Without added reverses, records are cleaned up where they belong.
  if options.addReverses then
    Routing.sendRecords self (.byOwner partition options.transposed) clean
  else pure clean

/-- On given ids ranks count vertices, share them out, clean up, move records to their owners and store
them. -/
theorem onGivenIds_eq (self : Member size) (records : List EdgeRecord) (vertices : List VertexId) :
    onGivenIds self records vertices options =
      (countVertices records vertices options >>= fun count =>
        Program.ofExcept (Failure.ofDefect (Partition.even count size)) >>= fun partition =>
        gatherParallel self options (.byOwner partition options.transposed) records >>= fun clean =>
        moveOn options partition self clean >>= fun placed =>
        View.build self placed partition options.transposed options.segmentBudget >>= fun view =>
        pure ⟨view, .identity partition self.rank, partition⟩) := by
  unfold onGivenIds moveOn
  cases options.addReverses <;> rfl

/-- Completed records are placed before they are stored, others are where they belong. -/
theorem moveOn_computes :
    Computes (fun rank => moveOn options partition (members rank)
        (cleaned options members (.byOwner partition options.transposed) records rank)) fun results =>
      (options.addReverses = true → Routing.Deliverable members Wire.record
        ((Placement.byOwner partition options.transposed).destination size)
        (cleaned options members (.byOwner partition options.transposed) records)) ∧
      results = owned options members records partition := by
  unfold moveOn owned
  -- Without reverses records were gathered on their owners to begin with.
  cases options.addReverses with
  | false => exact (Computes.pure _).congr fun results => by simp
  | true =>
    refine (Routing.sendRecords_computes members _ _).congr fun results => ?_
    simp

variable {members records partition}

/-- What the ranks come to when they share the given ids out evenly. -/
theorem onGivenIds_computes (ranked : ∀ rank, (members rank).rank = rank)
    (shared : Partition.even (vertexTotal options records vertices) size = .ok partition) :
    Computes (fun rank => onGivenIds (members rank) (records rank) (vertices rank) options)
      fun results =>
        Bounded options records vertices ∧
        Movable options members records partition ∧
        ∃ views, View.Built members (owned options members records partition) partition
          options.transposed options.segmentBudget views ∧
        results = fun rank => ⟨views rank, .identity partition rank, partition⟩ := by
  -- All ranks compute the same partition, so that any of them tells it.
  have even : Computes (fun _ : Fin size => (Program.ofExcept (Failure.ofDefect
      (Partition.even (vertexTotal options records vertices) size)) :
      Program size Failure (Partition size))) (· = fun _ => partition) := by
    refine (Computes.ofExcept _).congr fun results => ?_
    simp only [Failure.ofDefect_eq_ok_iff, shared, Except.ok.injEq, funext_iff]
    exact forall_congr' fun rank => eq_comm
  -- What has arrived is stored under the partition that was shared.
  have stored : Computes (fun rank => View.build (members rank)
        (owned options members records partition rank) partition options.transposed
        options.segmentBudget >>= fun view =>
        (pure ⟨view, .identity partition (members rank).rank, partition⟩ :
          Program size Failure (Constructed size)))
      fun results => ∃ views, View.Built members (owned options members records partition) partition
          options.transposed options.segmentBudget views ∧
        results = fun rank => ⟨views rank, .identity partition rank, partition⟩ := by
    simp only [ranked]
    exact Computes.bind _ (View.build_computes ranked) fun views _ => Computes.pure _
  simp only [onGivenIds_eq]
  -- The premises of the stages are collected in the order of these.
  refine Computes.congr ((countVertices_computes options records vertices).afterIf _ fun _ =>
    even.after ((gatherParallel_computes options _ records).afterIf _ fun _ =>
      (moveOn_computes options members records partition).afterIf _ fun _ => stored))
    fun results => ?_
  constructor
  · rintro ⟨bounded, meet, settle, views⟩
    exact ⟨bounded, ⟨meet, settle⟩, views⟩
  · rintro ⟨bounded, movable, views⟩
    exact ⟨bounded, movable.meet, movable.settle, views⟩

end Owners

section Edges

variable (options : Options) (partition : Partition size) (ranks : size ≤ UInt32.size)
  (short : ∀ rank, (edges rank).length < UInt64.size)

include ranks short

/-- Records that met as pairs stand for all edges of the graph. -/
theorem paired_standFor (lawful : ∀ rank, (members rank).sorter.Lawful) (someone : Fin size)
    (adds : options.addReverses = true) (otherwise : Placement) :
    EdgeRecord.StandFor edges
      (everything (cleaned options members otherwise (handedIn options edges)))
      (Reference.processed options (everything edges)) := by
  apply everything_cleaned_standFor options lawful otherwise ranks short
  rw [meeting, if_pos adds]
  exact Placement.exists_destination_byPair someone

/-- Owners hold the records of their edges, on either way there. -/
theorem owned_standFor (lawful : ∀ rank, (members rank).sorter.Lawful) (rank : Fin size) :
    EdgeRecord.StandFor edges (owned options members (handedIn options edges) partition rank)
      ((Reference.processed options (everything edges)).filter
        ((Placement.byOwner partition options.transposed).sends rank)) := by
  have direct := cleaned_standFor options lawful (.byOwner partition options.transposed) ranks short rank
  unfold owned
  -- Records that met by their pairs are sent on, and others met on their owners.
  cases adds : options.addReverses with
  | false =>
    rw [meeting, if_neg (by simp [adds])] at direct
    exact direct
  | true => exact (paired_standFor options ranks short lawful rank adds _).bound _ rank

/-- All edges of the graph have owners if their records could move there. -/
theorem owned_named (lawful : ∀ rank, (members rank).sorter.Lawful) (someone : Fin size)
    (movable : Movable options members (handedIn options edges) partition) :
    ∀ placed ∈ Reference.processed options (everything edges), ∃ rank : Fin size,
      (Placement.byOwner partition options.transposed).sends rank placed = true := by
  intro placed member
  cases adds : options.addReverses with
  | false =>
    -- Parallel edges share an owner, and one of them was handed in.
    obtain ⟨origin, held, ends | ⟨added, -⟩⟩ := Reference.exists_of_mem_clean member
    · rw [← placed_handedIn options ranks short] at held
      obtain ⟨record, handed, rfl⟩ := List.mem_map.mp held
      obtain ⟨rank, goes⟩ := movable.meet.named record handed
      rw [meeting, if_neg (by simp [adds])] at goes
      refine ⟨rank, ?_⟩
      rw [Placement.sends_congr ends, Placement.sends_placed]
      exact decide_eq_true goes
    · simp [adds] at added
  | true =>
    exact (paired_standFor options ranks short lawful someone adds
      (.byOwner partition options.transposed)).sent (movable.settle adds) placed member

end Edges

section Success

variable {partition : Partition size} {options : Options} {number : Nat} (ranks : size ≤ UInt32.size)
  (short : ∀ rank, (edges rank).length < UInt64.size)
  (inside : ∀ id ∈ Reference.vertices options (everything edges) (everything vertices),
    id < partition.vertexCount)
  (many : 2 * (everything edges).length ≤ number) (holds : ∀ rank, (members rank).Holds number)

include ranks short inside many holds

/-- Ranks that can hold all edges and reverses move them between the vertices of the graph. -/
theorem movable_of_holds (lawful : ∀ rank, (members rank).sorter.Lawful) (someone : Fin size) :
    Movable options members (handedIn options edges) partition := by
  constructor
  · -- Records meet on the rank of their pair, or on the owner of their major endpoint.
    have handed := placed_handedIn options ranks short
    have kept := Reference.length_kept_le options (everything edges)
    rw [← handed, List.length_map] at kept
    apply Routing.Deliverable.of_holds _ (by omega) holds
    intro record member
    cases adds : options.addReverses with
    | true =>
      rw [meeting, if_pos adds]
      exact Placement.exists_destination_byPair someone record
    | false =>
      rw [meeting, if_neg (by simp [adds])]
      apply Placement.exists_destination_byOwner
      obtain ⟨rank, held⟩ := mem_everything.mp member
      apply inside
      apply (mem_vertices_iff ranks short).mpr
      refine ⟨rank, List.mem_append_left _ (List.mem_flatMap.mpr ⟨record, held, ?_⟩)⟩
      unfold EdgeRecord.major
      split <;> simp
  · -- After cleaning up, endpoints are still vertices, and all of these have owners.
    intro adds
    have stand := paired_standFor options ranks short lawful someone adds
      (.byOwner partition options.transposed)
    have length := Reference.length_processed_le options (everything edges)
    apply Routing.Deliverable.of_holds _ (by rw [stand.length_eq]; omega) holds
    intro record member
    apply Placement.exists_destination_byOwner
    have found := stand.perm.subset (List.mem_map_of_mem member)
    obtain ⟨src, dst⟩ := Reference.ends_mem_vertices (everything vertices) found
    unfold EdgeRecord.major
    split
    · exact inside _ dst
    · exact inside _ src

/-- Ranks that can hold all edges and reverses come to views of them. -/
theorem exists_built_of_holds (lawful : ∀ rank, (members rank).sorter.Lawful) (someone : Fin size) :
    ∃ views, View.Built members (owned options members (handedIn options edges) partition) partition
      options.transposed options.segmentBudget views := by
  have movable := movable_of_holds ranks short inside many holds lawful someone
  have stand := fun rank => owned_standFor options partition ranks short lawful rank
  apply View.exists_built lawful _ _ holds
  · intro rank record member
    have sent := (stand rank).perm.subset (List.mem_map_of_mem member)
    exact Placement.sends_byOwner_iff.mp (List.mem_filter.mp sent).2
  · -- Every edge has one owner, so the owners hold as many records as there are edges.
    have all := (EdgeRecord.StandFor.everything stand).trans
      (everything_sends_perm (owned_named options partition ranks short lawful someone movable))
    have length := Reference.length_processed_le options (everything edges)
    rw [all.length_eq]
    omega

end Success

/-- What a construction on the given ids comes to if these are shared out evenly. -/
theorem construct_computes_shared (crew : Crew size) (edges : Fin size → List Edge)
    (vertices : Fin size → List VertexId) {options : Options} (keeps : options.renumber = false)
    {partition : Partition size}
    (shared : Partition.even (vertexTotal options (handedIn options edges) vertices) size = .ok partition) :
    Computes (fun rank => construct (crew.members rank) (edges rank) (vertices rank) options)
      fun results => Admitted crew.members edges vertices options ∧
        Bounded options (handedIn options edges) vertices ∧
        Movable options crew.members (handedIn options edges) partition ∧
        ∃ views, View.Built crew.members
            (owned options crew.members (handedIn options edges) partition) partition
            options.transposed options.segmentBudget views ∧
          results = fun rank => ⟨views rank, .identity partition rank, partition⟩ := by
  apply construct_computes options crew.ranked crew.lawful
  · unfold build
    simp only [keeps, Bool.false_eq_true, if_false]
    exact onGivenIds_computes options crew.ranked shared
  · -- All ranks have the partition that they share, so that confirming finds no difference.
    rintro _ ⟨-, -, views, -, rfl⟩
    exact ⟨partition.vertexCount, fun rank => rfl⟩

/-- What a construction on the given ids comes to. -/
theorem construct_computes_givenIds (crew : Crew size) (someone : Fin size) (edges : Fin size → List Edge)
    (vertices : Fin size → List VertexId) {options : Options} (keeps : options.renumber = false) :
    ∃ partition : Partition size,
      partition.vertexCount = vertexTotal options (handedIn options edges) vertices ∧
      Computes (fun rank => construct (crew.members rank) (edges rank) (vertices rank) options)
        fun results => Admitted crew.members edges vertices options ∧
          Bounded options (handedIn options edges) vertices ∧
          Movable options crew.members (handedIn options edges) partition ∧
          ∃ views, View.Built crew.members
              (owned options crew.members (handedIn options edges) partition) partition
              options.transposed options.segmentBudget views ∧
            results = fun rank => ⟨views rank, .identity partition rank, partition⟩ := by
  obtain ⟨partition, shared, counted⟩ := Partition.exists_even
    (vertexTotal options (handedIn options edges) vertices) (Nat.ne_of_gt someone.pos)
  exact ⟨partition, counted, construct_computes_shared crew edges vertices keeps shared⟩

/-- However the ranks take turns, a graph that keeps its ids has the edges of the reference list in
its order, and is constructed if what the ranks are given is accepted and they can hold it. A record
has 32 bits for the rank that it comes from, and no memory has mailboxes for more ranks than that. -/
theorem givenIds_edges_eq (crew : Crew size) (occupied : 0 < size) (ranks : size ≤ UInt32.size)
    (edges : Fin size → List Edge) (vertices : Fin size → List VertexId) (options : Options)
    (keeps : options.renumber = false)
    (run : Cluster.Run (Vector.ofFn fun rank =>
      construct (crew.members rank) (edges rank) (vertices rank) options)) :
    (∀ constructed : Fin size → Constructed size,
      (∀ rank, run.outcome rank = some (.ok (constructed rank))) →
      (everything fun rank => (constructed rank).view.edges) =
        Reference.edgeList options (everything edges)) ∧
    (Accepted edges vertices options →
      (options.vertexCount = none →
        ∀ id ∈ Reference.vertices options (everything edges) (everything vertices),
          id ≠ 0xffffffffffffffff) →
      (∀ rank, (crew.members rank).Holds
        (2 * (everything edges).length + (everything vertices).length)) →
      ∃ constructed : Fin size → Constructed size,
        ∀ rank, run.outcome rank = some (.ok (constructed rank))) := by
  -- Both parts read off what the construction computes: what all ranks have, and when there is something
  -- to have.
  obtain ⟨partition, counted, computes⟩ :=
    construct_computes_givenIds crew ⟨0, occupied⟩ edges vertices keeps
  constructor
  · intro constructed ends
    obtain ⟨admitted, -, movable, views, built, rfl⟩ :=
      computes.together_iff.mp (run.together_iff.mp ends)
    have short := fun rank => length_lt_of_makeRoom (admitted.recorded rank)
    exact built.everything_edges_eq crew.lawful
      (owned_standFor options partition ranks short crew.lawful)
      (owned_named options partition ranks short crew.lawful ⟨0, occupied⟩ movable)
      (Reference.processed_distinct options (everything edges))
  · intro accepted bounded holds
    have admitted := accepted.admitted crew.lawful (Nat.le_refl _) holds
    have short := fun rank => length_lt_of_makeRoom (admitted.recorded rank)
    have many : 2 * (everything edges).length ≤
        2 * (everything edges).length + (everything vertices).length := Nat.le_add_right _ _
    -- All ids lie in the graph, so that every record can be delivered and stored.
    have inside : ∀ id ∈ Reference.vertices options (everything edges) (everything vertices),
        id < partition.vertexCount := by
      rw [counted]
      exact lt_vertexTotal ranks short accepted bounded
    obtain ⟨views, built⟩ := exists_built_of_holds ranks short inside many holds crew.lawful
      ⟨0, occupied⟩
    refine ⟨_, run.together_iff.mpr (computes.together_iff.mpr ⟨admitted, ?_,
      movable_of_holds ranks short inside many holds crew.lawful ⟨0, occupied⟩, views, built, rfl⟩)⟩
    intro free rank id member
    exact bounded free id ((mem_vertices_iff ranks short).mpr ⟨rank, member⟩)

/-- Two ranks get from their edges to the reference list, on which weights have been added up. -/
theorem givenIds_edges_eq_sample :
    let total := (one.add two).add half
    ∃ (run : Cluster.Run (Vector.ofFn fun rank : Fin 2 =>
        construct ((Crew.stable fun _ => none).members rank) (weightedEdges rank) [] summing))
      (constructed : Fin 2 → Constructed 2),
      (∀ rank, run.outcome rank = some (.ok (constructed rank))) ∧
      (everything fun rank => (constructed rank).view.edges) =
        [⟨0, 1, some total, some 7, none⟩, ⟨1, 0, some total, some 7, none⟩,
          ⟨1, 2, none, some 9, none⟩, ⟨2, 1, none, some 9, none⟩] := by
  intro total
  obtain ⟨run⟩ := Cluster.Run.exists_of_programs (Vector.ofFn fun rank : Fin 2 =>
    construct ((Crew.stable fun _ => none).members rank) (weightedEdges rank) [] summing)
  obtain ⟨listed, succeeds⟩ := givenIds_edges_eq (Crew.stable fun _ => none) (by decide) (by decide)
    weightedEdges (fun _ => []) summing rfl run
  -- No endpoint is the greatest word, as can be decided from the edges.
  have bounded : (Reference.vertices summing (everything weightedEdges)
      (everything fun _ : Fin 2 => [])).all (· ≠ 0xffffffffffffffff) = true := by decide
  obtain ⟨constructed, ends⟩ := succeeds weighted_accepted
    (fun _ id member => of_decide_eq_true (List.all_eq_true.mp bounded id member))
    (Crew.stable_holds (by decide))
  refine ⟨run, constructed, ends, (listed constructed ends).trans ?_⟩
  -- The reference list is the only way to put its edges in order.
  let arranged : List PlacedEdge :=
    [⟨⟨0, 1, some total, some 7, none⟩, 0⟩, ⟨⟨1, 0, some total, some 7, none⟩, 0⟩,
      ⟨⟨1, 2, none, some 9, none⟩, 4⟩, ⟨⟨2, 1, none, some 9, none⟩, 4⟩]
  have held : arranged.Perm (Reference.processed summing (everything weightedEdges)) := by
    rw [processed_weightedEdges]
    exact (List.Perm.swap _ _ _).cons _
  have same : arranged = _ := Reference.eq_mergeSort_of_sorted
    (Reference.processed_distinct summing (everything weightedEdges)) held
    (by decide : arranged.Pairwise fun left right => left.precedes false right = true)
  exact (congrArg (List.map PlacedEdge.edge) same).symm

end DistGraph.Construction
