import DistGraph.Construction
import DistGraph.Proofs.Cleanup
import DistGraph.Proofs.Edge.Renamed
import DistGraph.Proofs.Routing.Exchange
import DistGraph.Proofs.Routing.Placement

/-! The records that ranks hand in, gather and clean up stand for the edges of the graph. -/

namespace DistGraph

variable {size : Nat} {edges : Fin size → List Edge}

/-- Whether records stand for some edges in their positions, in any order. -/
structure EdgeRecord.StandFor (edges : Fin size → List Edge) (records : List EdgeRecord)
    (placed : List PlacedEdge) : Prop where
  /-- The records tell where their edges were handed in. -/
  genuine : ∀ record ∈ records, record.Genuine edges
  /-- Every edge has one record. -/
  perm : (records.map (EdgeRecord.placed edges)).Perm placed

/-- The edges of the records that go to a rank are the edges that do. -/
theorem placed_bound (edges : Fin size → List Edge) (placement : Placement) (records : List EdgeRecord)
    (rank : Fin size) :
    (Grouping.bound (placement.destination size) records rank).map (EdgeRecord.placed edges) =
      (records.map (EdgeRecord.placed edges)).filter (placement.sends rank) := by
  rw [List.filter_map]
  unfold Grouping.bound
  -- Where a record goes can be read off the edge that it stands for.
  congr 1

namespace EdgeRecord.StandFor

variable {records : List EdgeRecord} {placed : List PlacedEdge}

/-- There are as many records as edges that they stand for. -/
theorem length_eq (stand : StandFor edges records placed) : records.length = placed.length := by
  rw [← stand.perm.length_eq, List.length_map]

/-- Records stand for the same edges in any order. -/
theorem trans (stand : StandFor edges records placed) {others : List PlacedEdge}
    (same : placed.Perm others) : StandFor edges records others :=
  ⟨stand.genuine, stand.perm.trans same⟩

/-- The records that go to a rank stand for the edges that do. -/
theorem bound (stand : StandFor edges records placed) (placement : Placement) (rank : Fin size) :
    StandFor edges (Grouping.bound (placement.destination size) records rank)
      (placed.filter (placement.sends rank)) := by
  refine ⟨fun record member => stand.genuine record (List.mem_of_mem_filter member), ?_⟩
  rw [placed_bound]
  exact stand.perm.filter _

/-- The records stand for the same edges on other ids. -/
theorem renamed (stand : StandFor edges records placed) (name : VertexId → VertexId) :
    StandFor edges (records.map (EdgeRecord.renamed name)) (placed.map (PlacedEdge.renamed name)) := by
  -- Renaming leaves places of origin alone, and does to the edge what it does to the record.
  constructor
  · intro record member
    obtain ⟨origin, held, rfl⟩ := List.mem_map.mp member
    exact (stand.genuine origin held).renamed name
  · have same : (records.map (EdgeRecord.renamed name)).map (EdgeRecord.placed edges) =
        (records.map (EdgeRecord.placed edges)).map (PlacedEdge.renamed name) := by
      rw [List.map_map, List.map_map]
      exact List.map_congr_left fun record _ => EdgeRecord.placed_renamed name record
    rw [same]
    exact stand.perm.map _

/-- The records of all ranks stand for what those of each rank do. -/
theorem everything {records : Fin size → List EdgeRecord} {placed : Fin size → List PlacedEdge}
    (each : ∀ rank, StandFor edges (records rank) (placed rank)) :
    StandFor edges (DistGraph.everything records) (DistGraph.everything placed) := by
  -- Each record is of one rank, where it stands for one of the edges.
  constructor
  · intro record member
    obtain ⟨rank, held⟩ := mem_everything.mp member
    exact (each rank).genuine record held
  · rw [map_everything]
    exact everything_perm fun rank => (each rank).perm

end EdgeRecord.StandFor

/-- Edges have ranks to go to if their records can be delivered. -/
theorem EdgeRecord.StandFor.sent {members : Fin size → Member size} {placement : Placement}
    {records : Fin size → List EdgeRecord} {placed : List PlacedEdge}
    (stand : StandFor edges (DistGraph.everything records) placed)
    (deliverable : Routing.Deliverable members Wire.record (placement.destination size) records) :
    ∀ edge ∈ placed, ∃ rank : Fin size, placement.sends rank edge = true := by
  intro edge member
  -- The edge has a record, which has a destination.
  obtain ⟨record, held, rfl⟩ := List.mem_map.mp (stand.perm.symm.subset member)
  obtain ⟨rank, goes⟩ := deliverable.named record held
  exact ⟨rank, (Placement.sends_placed edges record).trans (decide_eq_true goes)⟩

/-- Ranks without a limit can deliver records if these stand for edges that have ranks to go to, and no rank
has to count too many of them. -/
theorem EdgeRecord.StandFor.deliverable {members : Fin size → Member size} {placement : Placement}
    {records : Fin size → List EdgeRecord} {placed : List PlacedEdge}
    (stand : StandFor edges (DistGraph.everything records) placed)
    (named : ∀ edge ∈ placed, ∃ rank : Fin size, placement.sends rank edge = true)
    (free : ∀ rank, (members rank).memory = none) (sends : ∀ rank, (records rank).length ≤ Count.most)
    (receives : ∀ rank : Fin size, (placed.filter (placement.sends rank)).length ≤ Count.most) :
    Routing.Deliverable members Wire.record (placement.destination size) records := by
  -- What a rank receives are the records of the edges that go there.
  refine ⟨fun record member => ?_, fun rank => ⟨sends rank, ?_, ?_⟩⟩
  · obtain ⟨rank, goes⟩ := named _ (stand.perm.subset (List.mem_map_of_mem member))
    exact ⟨rank, of_decide_eq_true ((Placement.sends_placed edges record).symm.trans goes)⟩
  · exact (stand.bound placement rank).length_eq ▸ receives rank
  · have few : (Grouping.bound (placement.destination size) (DistGraph.everything records) rank).length ≤
        Count.most := (stand.bound placement rank).length_eq ▸ receives rank
    exact (Member.holds_of_unlimited (free rank) few).makeRoom (Wire.bytes_le Wire.record) (Nat.le_refl _)

/-- Edges of which each goes to some rank are all there once they are gathered. -/
theorem everything_sends_perm {placement : Placement} {placed : List PlacedEdge}
    (named : ∀ edge ∈ placed, ∃ rank : Fin size, placement.sends rank edge = true) :
    (everything fun rank : Fin size => placed.filter (placement.sends rank)).Perm placed := by
  -- An edge is sent where its record would go.
  have goes : ∀ edge ∈ placed, ∃ rank : Fin size,
      placement.destination size (.ofEdge edge.edge 0 0) = .ok rank.val := by
    intro edge member
    obtain ⟨rank, sent⟩ := named edge member
    exact ⟨rank, of_decide_eq_true sent⟩
  exact Routing.everything_bound_perm goes

namespace Construction

variable {members : Fin size → Member size} (options : Options)

/-- The records that a rank hands in. -/
def handedIn (edges : Fin size → List Edge) (rank : Fin size) : List EdgeRecord :=
  if options.dropSelfLoops then Cleanup.withoutSelfLoops (EdgeRecord.ofEdges rank (edges rank))
  else EdgeRecord.ofEdges rank (edges rank)

/-- A rank makes records of its edges if it has a buffer for them. -/
theorem recordsOf_eq_ok_iff {member : Member size} {rank : Fin size} (ranked : member.rank = rank)
    {records : List EdgeRecord} : recordsOf member (edges rank) options = .ok records ↔
      member.makeRoom Wire.record.bytes (edges rank).length = .ok () ∧
        records = handedIn options edges rank := by
  -- Making records fails for want of a buffer only.
  simp only [recordsOf, bind_eq_ok_iff, ranked, pure_eq_ok, Except.ok.injEq, handedIn]
  constructor
  · intro ⟨⟨⟩, granted, made⟩
    exact ⟨granted, made.symm⟩
  · intro ⟨granted, made⟩
    exact ⟨(), granted, made.symm⟩

/-- Ranks make records of their edges if they have buffers for them. -/
theorem recordsOf_computes (ranked : ∀ rank, (members rank).rank = rank) :
    Computes (fun rank => (Program.ofExcept (recordsOf (members rank) (edges rank) options) :
        Program size Failure (List EdgeRecord))) fun records =>
      (∀ rank, (members rank).makeRoom Wire.record.bytes (edges rank).length = .ok ()) ∧
      records = handedIn options edges := by
  refine (Computes.ofExcept _).congr fun records => ?_
  simp only [recordsOf_eq_ok_iff options (ranked _), forall_and, funext_iff]

/-- A rank hands in no more records than it is given edges. -/
theorem length_handedIn_le (edges : Fin size → List Edge) (rank : Fin size) :
    (handedIn options edges rank).length ≤ (edges rank).length := by
  have all : (EdgeRecord.ofEdges rank (edges rank)).length = (edges rank).length := by
    simp [EdgeRecord.ofEdges]
  -- Self-loops may be dropped, and each other edge has one record.
  unfold handedIn
  split
  · exact Nat.le_trans (List.length_filter_le _ _) all.le
  · exact all.le

/-- A rank that has a buffer for its edges can number them. -/
theorem length_lt_of_makeRoom {member : Member size} {number : Nat}
    (granted : member.makeRoom Wire.record.bytes number = .ok ()) : number < UInt64.size := by
  unfold Member.makeRoom at granted
  rw [mapError_eq_ok_iff, Memory.reserve_eq_ok_iff] at granted
  -- A record takes more than one byte of a buffer that a signed word measures.
  have buffer : number * 56 ≤ 2 ^ 63 - 1 := granted.1
  have word : UInt64.size = 2 ^ 64 := rfl
  omega

section HandedIn

variable (ranks : size ≤ UInt32.size) (short : ∀ rank, (edges rank).length < UInt64.size)

include ranks short

/-- Records tell where their edges were handed in. -/
theorem handedIn_genuine : ∀ record ∈ everything (handedIn options edges), record.Genuine edges := by
  intro record member
  obtain ⟨rank, held⟩ := mem_everything.mp member
  apply EdgeRecord.ofEdges_genuine ranks rank (short rank)
  -- The records are those of the edges, of which some may be dropped.
  unfold handedIn at held
  split at held
  · exact List.mem_of_mem_filter held
  · exact held

/-- The records that all ranks hand in stand for the edges that stay. -/
theorem placed_handedIn : (everything (handedIn options edges)).map (EdgeRecord.placed edges) =
    Reference.kept options (everything edges) := by
  have all := EdgeRecord.everything_ofEdges ranks short
  unfold Reference.kept
  rw [← all, map_everything]
  -- Rank by rank a record is dropped exactly if its edge is.
  cases drops : options.dropSelfLoops with
  | false => simp [handedIn, drops]
  | true =>
    rw [if_pos rfl, filter_everything]
    congr 1
    funext rank
    simp only [handedIn, drops, if_true, Cleanup.withoutSelfLoops, List.filter_map]
    rfl

/-- Records are handed in in the order of their places of origin. -/
theorem handedIn_ordered : (everything (handedIn options edges)).Pairwise
    fun left right => left.originNumber < right.originNumber := by
  -- Positions are in order and tell the order of the places of origin.
  have positions := Reference.position_kept options (everything edges)
  rw [← placed_handedIn options ranks short, List.pairwise_map] at positions
  refine List.Pairwise.imp_of_mem ?_ positions
  intro left right leftMember rightMember before
  have known := handedIn_genuine options ranks short
  have upTo := (known right rightMember).position_le_iff (known left leftMember)
  omega

end HandedIn

/-- Where the records meet that are merged or completed together. -/
def meeting (otherwise : Placement) : Placement :=
  if options.addReverses then .byPair else otherwise

/-- What a rank makes of the records that meet on it. -/
def cleaned (members : Fin size → Member size) (otherwise : Placement)
    (records : Fin size → List EdgeRecord) (rank : Fin size) : List EdgeRecord :=
  Cleanup.tidy (members rank).sorter options.mergePolicy false options.addReverses
    (Grouping.bound ((meeting options otherwise).destination size) (everything records) rank)

/-- Ranks gather the records that meet on them and clean them up, unless records cannot be delivered. -/
theorem gatherParallel_computes (otherwise : Placement) (records : Fin size → List EdgeRecord) :
    Computes (fun rank => gatherParallel (members rank) options otherwise (records rank))
      fun results =>
        Routing.Deliverable members Wire.record ((meeting options otherwise).destination size) records ∧
        results = cleaned options members otherwise records :=
  (Routing.sendRecords_computes members (meeting options otherwise) records).afterIf _
    fun _ => Computes.pure _

/-- What a rank cleans up stands for the edges of the graph that meet there. -/
theorem cleaned_standFor (lawful : ∀ rank, (members rank).sorter.Lawful) (otherwise : Placement)
    (ranks : size ≤ UInt32.size) (short : ∀ rank, (edges rank).length < UInt64.size)
    (rank : Fin size) :
    EdgeRecord.StandFor edges (cleaned options members otherwise (handedIn options edges) rank)
      ((Reference.processed options (everything edges)).filter
        ((meeting options otherwise).sends rank)) := by
  have known := handedIn_genuine options ranks short
  have ordered := handedIn_ordered options ranks short
  refine ⟨Cleanup.genuine_tidy (lawful rank) fun record member =>
    known record (List.mem_of_mem_filter member), ?_⟩
  refine (Cleanup.placed_tidy_perm (lawful rank) options.mergePolicy options.addReverses
    (ordered.filter _)).trans ?_
  have placed := placed_bound edges (meeting options otherwise)
    (everything (handedIn options edges)) rank
  rw [placed_handedIn options ranks short] at placed
  unfold Grouping.bound at placed
  rw [placed]
  -- Parallel edges meet, and so do reverses if any are added.
  apply Reference.clean_filter_perm
  · intro left right ends
    exact Placement.sends_congr ends
  · intro adds placed
    rw [meeting, if_pos adds]
    exact Placement.sends_byPair_reversed placed

/-- Records that are cleaned up on ranks that their endpoints hash to stand for all edges. -/
theorem everything_cleaned_standFor (lawful : ∀ rank, (members rank).sorter.Lawful)
    (otherwise : Placement) (ranks : size ≤ UInt32.size)
    (short : ∀ rank, (edges rank).length < UInt64.size)
    (everywhere : ∀ record, ∃ rank : Fin size,
      (meeting options otherwise).destination size record = .ok rank.val) :
    EdgeRecord.StandFor edges (everything (cleaned options members otherwise (handedIn options edges)))
      (Reference.processed options (everything edges)) := by
  refine (EdgeRecord.StandFor.everything fun rank =>
    cleaned_standFor options lawful otherwise ranks short rank).trans ?_
  -- Each edge meets its parallel ones on one rank.
  apply everything_sends_perm
  intro placed _
  obtain ⟨rank, goes⟩ := everywhere (.ofEdge placed.edge 0 0)
  exact ⟨rank, decide_eq_true goes⟩

end Construction

end DistGraph
