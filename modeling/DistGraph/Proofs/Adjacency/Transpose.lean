import DistGraph.Proofs.Adjacency.Plain
import DistGraph.Proofs.Adjacency.Rows
import DistGraph.Proofs.Adjacency.Turned
import DistGraph.Proofs.Routing.Placement

/-! Views of the graph with every edge turned around. -/

namespace DistGraph

variable {size : Nat}

open EdgeRecord (plain)

namespace EdgeRecord

variable {transposed : Bool}

/-- The endpoints of a record trade places when its edge is turned around. -/
theorem ends_of_toEdge_reversed {record origin : EdgeRecord}
    (turned : record.toEdge = origin.toEdge.reversed) (transposed : Bool) :
    record.major transposed = origin.minor transposed ∧
      record.minor transposed = origin.major transposed := by
  simp only [toEdge, Edge.reversed, Edge.mk.injEq] at turned
  cases transposed <;> simp [major, minor, turned]

/-- Among records of one vertex the other endpoint decides, and then the origin. -/
theorem keyNumber_lt {left right : EdgeRecord} (same : left.major transposed = right.major transposed)
    (before : left.minor transposed < right.minor transposed ∨
      left.minor transposed ≤ right.minor transposed ∧ left.originNumber < right.originNumber) :
    left.keyNumber transposed < right.keyNumber transposed := by
  have := left.originNumber_lt
  -- The origin takes the lowest digits of the key and cannot carry into the minor endpoint.
  unfold keyNumber pairNumber
  rw [same]
  rw [UInt64.lt_iff_toNat_lt, UInt64.le_iff_toNat_le] at before
  omega

end EdgeRecord

namespace HalfEdge

variable (transposed : Bool) (source : VertexId) (stored : HalfEdge)

/-- Turned around, an edge belongs to the vertex that it led to. -/
theorem major_reversed :
    (EdgeRecord.ofEdge (stored.toEdge transposed source).reversed 0 0).major transposed =
      stored.target := by
  cases transposed <;> rfl

/-- A stored edge is turned around by putting the vertex of its row in the place of its target. -/
theorem ofRecord_reversed :
    ofRecord transposed (EdgeRecord.ofEdge (stored.toEdge transposed source).reversed 0 0) =
      { stored with target := source } := by
  have same := EdgeRecord.toEdge_ofEdge (stored.toEdge transposed source).reversed 0 0
  -- In either orientation the record of the turned edge reads off its fields from the stored one.
  cases transposed <;>
    simp only [EdgeRecord.toEdge, Edge.reversed, toEdge, Bool.false_eq_true, if_true, if_false,
      Edge.mk.injEq] at same <;>
    simp [ofRecord, same, toEdge, Edge.reversed, EdgeRecord.minor]

end HalfEdge

namespace View

/-- The vertices of all ranks in their order. -/
def vertices (views : Fin size → View size) : List VertexId :=
  -- Every rank owns a run of them.
  everything fun rank => (views rank).range.toList

/-- The row of a vertex, whichever rank owns it. -/
def row (views : Fin size → View size) (vertex : VertexId) : List HalfEdge :=
  -- Other ranks store no edges of the vertex.
  everything fun rank => (views rank).halfEdges vertex

/-- The records that a rank makes of its edges when it turns them around. -/
def turned (views : Fin size → View size) (rank : Fin size) : List EdgeRecord :=
  -- Origins tell in which order the edges were read back.
  EdgeRecord.ofEdges rank ((views rank).edges.map Edge.reversed)

/-- The turned records that reach a rank as the owner of their new major endpoints. -/
def turnedFor (views : Fin size → View size) (partition : Partition size) (transposed : Bool)
    (rank : Fin size) : List EdgeRecord :=
  -- They come from all ranks.
  Grouping.bound ((Placement.byOwner partition transposed).destination size) (everything (turned views))
    rank

variable {members : Fin size → Member size} {records : Fin size → List EdgeRecord}
  {partition : Partition size} {transposed : Bool} {budget : Option UInt64}
  {views : Fin size → View size}

section Built

variable (built : Built members records partition transposed budget views)
  (lawful : ∀ rank, (members rank).sorter.Lawful)

include built

/-- Built views agree on partition, orientation and segments, so all ranks go on in the same way. -/
theorem Built.transpose_eq (ranked : ∀ rank, (members rank).rank = rank) (rank : Fin size) :
    transpose (members rank) (views rank) =
      (Routing.sendRecords (members rank) (.byOwner partition transposed) (turned views rank) >>=
        fun received => build (members rank) received partition transposed budget) := by
  unfold transpose turned
  rw [ranked rank, built.partition_eq, built.transposed_eq, built.segmentBudget_eq]

/-- Ranks that turn the edges of their views around come to views of what reaches them. -/
theorem transpose_computes (ranked : ∀ rank, (members rank).rank = rank) :
    Computes (fun rank => transpose (members rank) (views rank)) fun results =>
      Routing.Deliverable members Wire.record ((Placement.byOwner partition transposed).destination size)
        (turned views) ∧
      Built members (turnedFor views partition transposed) partition transposed budget results := by
  simp only [built.transpose_eq ranked]
  exact (Routing.sendRecords_computes members _ (turned views)).afterIf _ fun _ => build_computes ranked

/-- The row of a vertex is the one that its owner has. -/
theorem row_eq {rank : Fin size} {vertex : VertexId}
    (owned : (partition.spanOf rank).contains vertex = true) :
    row views vertex = (views rank).halfEdges vertex := by
  refine everything_only rank fun other different => halfEdges_of_stray fun strays => different ?_
  rw [built.range_eq] at strays
  exact Partition.spanOf_unique strays owned

/-- The vertices of all ranks ascend. -/
theorem vertices_ascend : (vertices views).Pairwise (· < ·) := by
  unfold vertices
  simp only [built.range_eq]
  exact partition.everything_toList_ascending

/-- The vertices of all ranks are the ids below the vertex count. -/
theorem mem_vertices_iff {vertex : VertexId} :
    vertex ∈ vertices views ↔ vertex < partition.vertexCount := by
  unfold vertices
  simp only [built.range_eq]
  exact partition.mem_everything_toList

/-- On every rank the turned records come row by row. -/
theorem map_plain_turned (rank : Fin size) :
    (turned views rank).map plain = (views rank).range.toList.flatMap fun source =>
      ((views rank).halfEdges source).map fun stored =>
        EdgeRecord.ofEdge (stored.toEdge transposed source).reversed 0 0 := by
  -- Up to their origins the turned records are the edges of the rank, turned around.
  have edges := congrArg (List.map fun edge => EdgeRecord.ofEdge edge 0 0)
    (EdgeRecord.map_toEdge_ofEdges rank ((views rank).edges.map Edge.reversed))
  rw [List.map_map] at edges
  refine edges.trans ?_
  simp only [View.edges, edgesAt, built.transposed_eq, List.map_flatMap, List.map_map]
  rfl

/-- The targets of the stored edges are the new major endpoints. -/
theorem map_major_turned (rank : Fin size) :
    (turned views rank).map (fun record => record.major transposed) =
      ((views rank).range.toList.flatMap (views rank).halfEdges).map HalfEdge.target := by
  -- A plain record has the major endpoint of the record that it was made of.
  have majors := congrArg (List.map fun record : EdgeRecord => record.major transposed)
    (map_plain_turned built rank)
  rw [List.map_map] at majors
  refine majors.trans ?_
  simp only [List.map_flatMap, List.map_map, Function.comp_def, HalfEdge.major_reversed]

/-- What the turned records are stored as makes up the rows of the turned graph. -/
theorem map_turned (vertex : VertexId) :
    ((everything (turned views)).filter fun record => record.major transposed = vertex).map
        (HalfEdge.ofRecord transposed) = turnedRow (vertices views) (row views) vertex := by
  unfold turnedRow vertices
  rw [filter_everything, map_everything, flatMap_everything]
  congr 1
  funext rank
  -- Origins do not matter for what is stored.
  have dropped : ((turned views rank).filter fun record => record.major transposed = vertex).map
      (HalfEdge.ofRecord transposed) = (((turned views rank).map plain).filter fun record =>
        record.major transposed = vertex).map (HalfEdge.ofRecord transposed) := by
    rw [List.filter_map, List.map_map]
    exact List.map_congr_left fun record _ => (HalfEdge.ofRecord_plain transposed record).symm
  rw [dropped, map_plain_turned built, List.filter_flatMap, List.map_flatMap]
  refine List.flatMap_congr fun source member => ?_
  have owned : (partition.spanOf rank).contains source = true :=
    built.range_eq rank ▸ Span.mem_toList.mp member
  rw [row_eq built owned, List.filter_map, List.map_map]
  simp only [Function.comp_def, HalfEdge.major_reversed, HalfEdge.ofRecord_reversed]

omit built in
/-- A rank is sent the turned records whose major endpoint it owns. -/
theorem length_turnedFor_eq (rank : Fin size) : (turnedFor views partition transposed rank).length =
    (((everything (turned views)).map fun record => record.major transposed).filter fun major =>
      (partition.spanOf rank).contains major).length := by
  rw [List.filter_map, List.length_map]
  refine congrArg List.length (List.filter_congr fun record _ => ?_)
  rw [Function.comp_apply, Bool.eq_iff_iff, decide_eq_true_eq, Placement.destination_byOwner_iff]

/-- As many turned records reach a rank as there are edges that lead to its vertices. -/
theorem length_turnedFor (rank : Fin size) : (turnedFor views partition transposed rank).length =
    ((everything fun peer => (views peer).range.toList.flatMap (views peer).halfEdges).filter
      fun stored => (views rank).range.contains stored.target).length := by
  -- The major endpoint of a turned record is the target of the edge that it was made of.
  have targets : (everything fun peer => (views peer).range.toList.flatMap (views peer).halfEdges).map
      HalfEdge.target = (everything (turned views)).map fun record => record.major transposed := by
    simp only [map_everything, map_major_turned built]
  rw [length_turnedFor_eq, ← targets, List.filter_map, List.length_map, built.range_eq rank]
  rfl

include lawful

/-- Turned records come from the rank that owns what is their minor endpoint now. -/
theorem exists_of_mem_turned {rank : Fin size} {record : EdgeRecord} (member : record ∈ turned views rank) :
    ∃ origin ∈ records rank, record.toEdge = origin.toEdge.reversed := by
  -- A turned record stands for an edge of the rank, turned around.
  have edges := EdgeRecord.map_toEdge_ofEdges rank ((views rank).edges.map Edge.reversed)
  have edge : record.toEdge ∈ (views rank).edges.map Edge.reversed :=
    edges ▸ List.mem_map_of_mem member
  rw [built.edges_eq lawful, List.map_map, List.mem_map] at edge
  obtain ⟨origin, held, same⟩ := edge
  exact ⟨origin, ((lawful rank).records_perm _ _).subset held, same.symm⟩

/-- The turned records of a vertex are sent out in the order of their keys. -/
theorem turned_ascend (short : ∀ rank, (records rank).length ≤ UInt64.size) (vertex : VertexId) :
    ((everything (turned views)).filter fun record => record.major transposed = vertex).Pairwise
      fun left right => left.keyNumber transposed < right.keyNumber transposed := by
  have same : ∀ {left right : EdgeRecord} {held held' : List EdgeRecord},
      left ∈ (held.filter fun record => record.major transposed = vertex) →
      right ∈ (held'.filter fun record => record.major transposed = vertex) →
        left.major transposed = right.major transposed := fun leftHeld rightHeld =>
    (of_decide_eq_true (List.mem_filter.mp leftHeld).2).trans
      (of_decide_eq_true (List.mem_filter.mp rightHeld).2).symm
  -- A turned record has its row's vertex as its minor endpoint now.
  have owner : ∀ {rank : Fin size} {record : EdgeRecord}, record ∈ turned views rank →
      (partition.spanOf rank).contains (record.minor transposed) = true := by
    intro rank record member
    obtain ⟨origin, held, reversed⟩ := exists_of_mem_turned built lawful member
    rw [(EdgeRecord.ends_of_toEdge_reversed reversed transposed).2]
    exact built.own rank origin held
  rw [filter_everything]
  refine pairwise_everything (fun rank => ?_) ?_
  · -- A rank goes through its rows in order, and through parallel edges in their order there.
    have ascending : ((views rank).edges.map Edge.reversed).Pairwise fun left right =>
        (EdgeRecord.ofEdge left 0 0).minor transposed ≤ (EdgeRecord.ofEdge right 0 0).minor transposed := by
      rw [built.edges_eq lawful, List.map_map, List.pairwise_map]
      refine (majors_ascend (lawful rank) transposed (records rank)).imp fun {left right} before => ?_
      cases transposed <;> exact UInt64.le_iff_toNat_le.mpr before
    have length : ((views rank).edges.map Edge.reversed).length ≤ UInt64.size := by
      rw [built.edges_eq lawful, List.length_map, List.length_map,
        ((lawful rank).records_perm _ _).length_eq]
      exact short rank
    refine List.Pairwise.imp_of_mem ?_ ((EdgeRecord.ofEdges_pairwise rank length ascending).filter _)
    intro left right leftHeld rightHeld before
    exact EdgeRecord.keyNumber_lt (same leftHeld rightHeld) (.inr before)
  · -- Ranks own runs of vertices that follow one another.
    intro lower upper below left leftHeld right rightHeld
    apply EdgeRecord.keyNumber_lt (same leftHeld rightHeld)
    have leftInside := Span.contains_iff.mp (owner (List.mem_of_mem_filter leftHeld))
    have rightInside := Span.contains_iff.mp (owner (List.mem_of_mem_filter rightHeld))
    have apart := partition.spanOf_stop_le_start below
    rw [UInt64.lt_iff_toNat_lt]
    omega

/-- Sorting leaves the turned records of a vertex as they came. -/
theorem filter_sorted_turnedFor (short : ∀ rank, (records rank).length ≤ UInt64.size) {rank : Fin size}
    {vertex : VertexId} (owned : (partition.spanOf rank).contains vertex = true) :
    ((members rank).sorter.records transposed (turnedFor views partition transposed rank)).filter
        (fun record => record.major transposed = vertex) =
      (everything (turned views)).filter fun record => record.major transposed = vertex := by
  have arrives : (turnedFor views partition transposed rank).filter
      (fun record => record.major transposed = vertex) =
        (everything (turned views)).filter fun record => record.major transposed = vertex := by
    rw [turnedFor, Grouping.bound, List.filter_filter]
    refine List.filter_congr fun record _ => ?_
    simp only [Placement.destination_byOwner_iff]
    by_cases same : record.major transposed = vertex <;> simp [same, owned]
  -- The records of one vertex ascend already, with distinct keys, so that sorting cannot move them.
  have ascending := turned_ascend built lawful short vertex
  have distinct : (((everything (turned views)).filter fun record =>
      record.major transposed = vertex).map (EdgeRecord.keyNumber transposed)).Nodup :=
    List.pairwise_map.mpr (ascending.imp Nat.ne_of_lt)
  have sorted := ((lawful rank).records_perm transposed
    (turnedFor views partition transposed rank)).filter fun record => record.major transposed = vertex
  rw [arrives] at sorted
  refine List.Perm.eq_of_pairwise ?_ (((lawful rank).keys_ascend transposed _).filter _)
    (ascending.imp Nat.le_of_lt) sorted
  intro left right leftHeld rightHeld before after
  exact List.inj_on_of_nodup_map distinct (sorted.subset leftHeld) rightHeld (Nat.le_antisymm before after)

/-- Turned records have the endpoints of the records that are stored, in each other's places. -/
theorem map_ends_turned (rank : Fin size) :
    ((turned views rank).map fun record => record.major transposed).Perm
        ((records rank).map fun record => record.minor transposed) ∧
      ((turned views rank).map fun record => record.minor transposed).Perm
        ((records rank).map fun record => record.major transposed) := by
  -- The edges of the view are those of the stored records, up to the sorted order.
  have edges : (turned views rank).map EdgeRecord.toEdge =
      ((members rank).sorter.records transposed (records rank)).map fun origin =>
        origin.toEdge.reversed := by
    refine (EdgeRecord.map_toEdge_ofEdges rank _).trans ?_
    rw [built.edges_eq lawful, List.map_map]
    rfl
  have majors := congrArg (List.map fun edge => (EdgeRecord.ofEdge edge 0 0).major transposed) edges
  have minors := congrArg (List.map fun edge => (EdgeRecord.ofEdge edge 0 0).minor transposed) edges
  have same := (lawful rank).records_perm transposed (records rank)
  rw [List.map_map, List.map_map] at majors minors
  constructor
  · refine (List.Perm.of_eq ?_).trans (same.map _)
    cases transposed <;> exact majors
  · refine (List.Perm.of_eq ?_).trans (same.map _)
    cases transposed <;> exact minors

/-- Every stored record is turned around once. -/
theorem length_turned (rank : Fin size) : (turned views rank).length = (records rank).length := by
  simpa using (map_ends_turned built lawful rank).1.length_eq

end Built

/-- Whether ranks can count what they exchange when they turn the edges of their views around. -/
structure Turnable (views : Fin size → View size) : Prop where
  /-- No rank stores too many edges. -/
  sends : ∀ rank, (views rank).edgeCount ≤ Count.most
  /-- Not too many edges lead to the vertices of any rank. -/
  receives : ∀ rank, ((everything fun peer =>
    (views peer).range.toList.flatMap (views peer).halfEdges).filter fun stored =>
      (views rank).range.contains stored.target).length ≤ Count.most

/-- Ranks that store few edges altogether can count what they exchange. -/
theorem Built.turnable (built : Built members records partition transposed budget views)
    (lawful : ∀ rank, (members rank).sorter.Lawful) (few : (everything records).length ≤ Count.most) :
    Turnable views := by
  refine ⟨fun rank => ?_, fun rank => ?_⟩
  · rw [built.edgeCount_eq lawful]
    exact Nat.le_trans (length_le_everything records rank) few
  · -- What a rank receives is part of what all ranks store.
    have lengths : ∀ peer, ((views peer).range.toList.flatMap (views peer).halfEdges).length =
        (records peer).length := by
      intro peer
      rw [← length_turned built lawful, ← List.length_map HalfEdge.target, ← map_major_turned built,
        List.length_map]
    refine Nat.le_trans (List.length_filter_le _ _) ?_
    simpa only [length_everything, lengths] using few

/-- Whether views show a graph in which every edge is turned around. -/
structure Reversed (views reversed : Fin size → View size) : Prop where
  /-- Every rank keeps what does not depend on the edges. -/
  frame : ∀ rank, (reversed rank).rank = (views rank).rank ∧
    (reversed rank).partition = (views rank).partition ∧
    (reversed rank).transposed = (views rank).transposed ∧
    (reversed rank).segmentBudget = (views rank).segmentBudget
  /-- There are as many edges as before. -/
  total : ∀ rank, (reversed rank).globalEdgeCount = (views rank).globalEdgeCount
  /-- The owner of a vertex stores the edges that led to it, in the order of where they came from. -/
  rows : ∀ rank vertex, (views rank).range.contains vertex = true →
    (reversed rank).halfEdges vertex = turnedRow (vertices views) (row views) vertex
  /-- Targets still ascend. -/
  ascend : ∀ rank vertex,
    ((reversed rank).halfEdges vertex).Pairwise fun left right => left.target ≤ right.target

variable (members records partition transposed budget views) in
/-- Whether views are what ranks store of a graph in which every edge has both endpoints. -/
structure Whole : Prop extends Built members records partition transposed budget views where
  /-- The endpoints that are not grouped by are vertices as well. -/
  inside : ∀ rank, ∀ record ∈ records rank, record.minor transposed < partition.vertexCount

namespace Whole

variable (whole : Whole members records partition transposed budget views)
  (lawful : ∀ rank, (members rank).sorter.Lawful)

include whole lawful

/-- Turned records have an owner. -/
theorem exists_owner : ∀ record ∈ everything (turned views), ∃ rank : Fin size,
    (Placement.byOwner partition transposed).destination size record = .ok rank.val := by
  intro record member
  obtain ⟨rank, held⟩ := mem_everything.mp member
  -- The turned record goes where the other endpoint of a stored record lives.
  obtain ⟨origin, own, reversed⟩ := exists_of_mem_turned whole.toBuilt lawful held
  apply Placement.exists_destination_byOwner
  rw [(EdgeRecord.ends_of_toEdge_reversed reversed transposed).1]
  exact whole.inside rank origin own

/-- No record gets lost on the way to its new owner. -/
theorem length_everything_turnedFor :
    (everything (turnedFor views partition transposed)).length = (everything records).length := by
  -- Turning keeps the number of records, and every one of them has an owner.
  have lengths : (everything (turned views)).length = (everything records).length := by
    simp only [length_everything, length_turned whole.toBuilt lawful]
  rw [← lengths]
  exact Routing.length_everything_bound (whole.exists_owner lawful)

/-- The other endpoints of turned records own the rows that these come from. -/
theorem turned_inside (rank : Fin size) : ∀ record ∈ turnedFor views partition transposed rank,
    record.minor transposed < partition.vertexCount := by
  intro record member
  -- The record was stored where its new minor endpoint lives.
  obtain ⟨sender, held⟩ := mem_everything.mp (List.mem_of_mem_filter member)
  obtain ⟨origin, own, reversed⟩ := exists_of_mem_turned whole.toBuilt lawful held
  rw [(EdgeRecord.ends_of_toEdge_reversed reversed transposed).2]
  exact Partition.lt_vertexCount_of_contains (whole.own sender origin own)

/-- Rows lead to vertices of the graph only. -/
theorem targets_listed {rank : Fin size} {vertex : VertexId} :
    ∀ stored ∈ (views rank).halfEdges vertex, stored.target ∈ vertices views := by
  intro stored member
  -- The targets of a row are the minor endpoints of the vertex's records.
  have listed := ((whole.targets_perm lawful rank vertex).subset (List.mem_map_of_mem member))
  obtain ⟨record, held, same⟩ := List.mem_map.mp listed
  rw [mem_vertices_iff whole.toBuilt, ← same]
  exact whole.inside rank record (List.mem_of_mem_filter held)

/-- As many edges lead back to the vertices of a rank as led from them. -/
theorem length_turnedFor_turnedFor {reversed : Fin size → View size} (built : Built members
    (turnedFor views partition transposed) partition transposed budget reversed) (rank : Fin size) :
    (turnedFor reversed partition transposed rank).length = (records rank).length := by
  have majors : ((everything (turned reversed)).map fun record => record.major transposed).Perm
      ((everything records).map fun record => record.major transposed) := by
    have back := (Routing.everything_bound_perm (whole.exists_owner lawful)).map
      fun record => record.minor transposed
    have first := everything_perm fun rank => (map_ends_turned built lawful rank).1
    have second := everything_perm fun rank => (map_ends_turned whole.toBuilt lawful rank).2
    rw [map_everything] at back ⊢
    rw [map_everything] at back ⊢
    exact first.trans (back.trans second)
  rw [length_turnedFor_eq, (majors.filter _).length_eq, List.filter_map, List.length_map,
    filter_everything, everything_only rank, List.filter_eq_self.mpr]
  · exact whole.own rank
  · -- The records of other ranks belong to vertices of these.
    intro other different
    rw [List.filter_eq_nil_iff]
    exact fun record member owned => different (Partition.spanOf_unique (whole.own other record member) owned)

/-- Turning the edges around again gives every row back. -/
theorem halfEdges_reversed_reversed {reversed again : Fin size → View size}
    (first : Reversed views reversed) (second : Reversed reversed again) {rank : Fin size}
    {vertex : VertexId} (owned : (views rank).range.contains vertex = true) :
    (again rank).halfEdges vertex = (views rank).halfEdges vertex := by
  -- Turning changes no rank's vertices, so that both turns gather from the same sources.
  have ranges : ∀ rank, (reversed rank).range = (views rank).range := by
    intro rank
    obtain ⟨own, shared, -, -⟩ := first.frame rank
    rw [range, range, own, shared]
  have listed : vertices reversed = vertices views := by
    simp only [vertices, ranges]
  have turns : ∀ source ∈ vertices views,
      row reversed source = turnedRow (vertices views) (row views) source := by
    intro source member
    obtain ⟨owner, held⟩ := mem_everything.mp member
    have inside := Span.mem_toList.mp held
    rw [← first.rows owner source inside]
    refine everything_only owner fun other different => halfEdges_of_stray fun strays => different ?_
    rw [ranges, whole.range_eq] at strays
    rw [whole.range_eq] at inside
    exact Partition.spanOf_unique strays inside
  have member : vertex ∈ vertices views :=
    mem_everything.mpr ⟨rank, Span.mem_toList.mpr owned⟩
  have own := row_eq whole.toBuilt (whole.range_eq rank ▸ owned)
  rw [second.rows rank vertex (ranges rank ▸ owned), listed, ← own]
  -- From here on it is a fact about rows: gathering twice sorts a row by its targets, which it is
  -- already.
  refine Eq.trans (List.flatMap_congr fun source held => by rw [turns source held])
    (turnedRow_turnedRow (vertices_ascend whole.toBuilt) member ?_ ?_)
  · rw [own]
    exact whole.targets_ascend lawful rank vertex
  · rw [own]
    exact whole.targets_listed lawful

/-- Turning the edges around twice gives back the views, with their segments. -/
theorem eq_of_reversed_reversed {reversed again : Fin size → View size}
    {arrived : Fin size → List EdgeRecord} (first : Reversed views reversed)
    (second : Reversed reversed again)
    (rebuilt : Built members arrived partition transposed budget again) : again = views := by
  have edges : ∀ rank, (again rank).edges = (views rank).edges := by
    intro rank
    unfold View.edges
    rw [rebuilt.range_eq, whole.range_eq]
    refine List.flatMap_congr fun vertex member => ?_
    unfold edgesAt
    rw [rebuilt.transposed_eq, whole.transposed_eq, whole.halfEdges_reversed_reversed lawful first second]
    rw [whole.range_eq]
    exact Span.mem_toList.mp member
  have counts : ∀ rank, (again rank).globalEdgeCount = (views rank).globalEdgeCount :=
    fun rank => (second.total rank).trans (first.total rank)
  simp only [rebuilt.edges_eq lawful, whole.edges_eq lawful] at edges
  obtain ⟨-, totals, segments, -, stored, rfl⟩ := rebuilt
  obtain ⟨⟨-, totals', segments', -, stored', rfl⟩, -⟩ := whole
  funext rank
  -- Records of the same edges make the same segments.
  have same := stored rank
  rw [Segment.buildAll_congr _ _ _ (edges rank), stored' rank, Except.ok.injEq] at same
  have count : totals rank = totals' rank := counts rank
  rw [same, count]

variable (turnable : Turnable views)

include turnable

/-- Ranks whose edges can be turned around store few enough records to send. -/
theorem length_le_most (rank : Fin size) : (records rank).length ≤ Count.most :=
  whole.edgeCount_eq lawful rank ▸ turnable.sends rank

omit lawful in
/-- Ranks whose edges can be turned around are sent few enough records. -/
theorem length_turnedFor_le (rank : Fin size) :
    (turnedFor views partition transposed rank).length ≤ Count.most := by
  rw [length_turnedFor whole.toBuilt]
  exact turnable.receives rank

/-- Ranks with memory for it can send the turned records to their owners. -/
theorem deliverable_turned (free : ∀ rank, (members rank).memory = none) :
    Routing.Deliverable members Wire.record ((Placement.byOwner partition transposed).destination size)
      (turned views) := by
  -- Even the most records that can be counted fit the largest buffer.
  have cells : Count.most * HalfEdge.cellBytes ≤ Memory.largestBuffer := by decide
  refine ⟨whole.exists_owner lawful, fun rank => ⟨?_, whole.length_turnedFor_le turnable rank, ?_⟩⟩
  · rw [length_turned whole.toBuilt lawful]
    exact whole.length_le_most lawful turnable rank
  · refine Member.makeRoom_of_unlimited (free rank)
      (Nat.le_trans (Nat.mul_le_mul ?_ Wire.record.bytes_le) cells)
    exact whole.length_turnedFor_le turnable rank

/-- They can store what reaches them. -/
theorem exists_built_turned (free : ∀ rank, (members rank).memory = none) :
    ∃ reversed, Built members (turnedFor views partition transposed) partition transposed budget
      reversed := by
  have cells : Count.most * HalfEdge.cellBytes ≤ Memory.largestBuffer := by decide
  have short : ∀ rank, (records rank).length < UInt64.size := fun rank =>
    Nat.lt_of_le_of_lt (whole.length_le_most lawful turnable rank) (by decide)
  have fits : (everything (turnedFor views partition transposed)).length < UInt64.size := by
    rcases Nat.eq_zero_or_pos size with none_there | occupied
    · subst none_there
      rw [everything_zero]
      decide
    · -- The edges have been counted before.
      rw [whole.length_everything_turnedFor lawful,
        ← whole.globalEdgeCount_eq_of_short lawful short ⟨0, occupied⟩]
      exact UInt64.toNat_lt_size _
  exact exists_built_of_room lawful (Placement.contains_of_bound partition transposed _)
    (fun rank length few => Member.makeRoom_of_unlimited (free rank) <| Nat.le_trans
      (Nat.mul_le_mul_right _ (Nat.le_trans few (whole.length_turnedFor_le turnable rank))) cells) fits

section Rebuilt

variable {reversed : Fin size → View size}
  (built : Built members (turnedFor views partition transposed) partition transposed budget reversed)

include built

/-- Views of the turned records show every edge turned around. -/
theorem reversed_of_built : Reversed views reversed := by
  -- Before and after the turn each rank's records can be counted by a word, and so can their sum.
  have short : ∀ rank, (records rank).length < UInt64.size := fun rank =>
    Nat.lt_of_le_of_lt (whole.length_le_most lawful turnable rank) (by decide)
  have shortFor : ∀ rank, (turnedFor views partition transposed rank).length < UInt64.size := fun rank =>
    Nat.lt_of_le_of_lt (whole.length_turnedFor_le turnable rank) (by decide)
  refine ⟨fun rank => ⟨?_, ?_, ?_, ?_⟩, fun rank => ?_, fun rank vertex owned => ?_,
    built.targets_ascend lawful⟩
  · rw [built.rank_eq, whole.rank_eq]
  · rw [built.partition_eq, whole.partition_eq]
  · rw [built.transposed_eq, whole.transposed_eq]
  · rw [built.segmentBudget_eq, whole.segmentBudget_eq]
  · apply UInt64.toNat_inj.mp
    rw [built.globalEdgeCount_eq_of_short lawful shortFor, whole.globalEdgeCount_eq_of_short lawful short,
      whole.length_everything_turnedFor lawful]
  · rw [whole.range_eq] at owned
    rw [built.halfEdges_eq lawful,
      filter_sorted_turnedFor whole.toBuilt lawful (fun rank => Nat.le_of_lt (short rank)) owned,
      map_turned whole.toBuilt]

/-- Their edges can be turned around again. -/
theorem turnable_of_built : Turnable reversed := by
  -- The second turn sends back what the first one has brought.
  refine ⟨fun rank => ?_, fun rank => ?_⟩
  · rw [built.edgeCount_eq lawful]
    exact whole.length_turnedFor_le turnable rank
  · rw [← length_turnedFor built, whole.length_turnedFor_turnedFor lawful built]
    exact whole.length_le_most lawful turnable rank

end Rebuilt

/-- Turning edges around leaves views of a whole graph, in which every edge is turned around. -/
theorem exists_reversed (ranked : ∀ rank, (members rank).rank = rank)
    (free : ∀ rank, (members rank).memory = none) :
    ∃ reversed, Together (fun rank => transpose (members rank) (views rank)) reversed ∧
      Whole members (turnedFor views partition transposed) partition transposed budget reversed ∧
      Reversed views reversed ∧ Turnable reversed := by
  -- Turning is a delivery of the turned records followed by a build of what arrives.
  have deliverable := whole.deliverable_turned lawful turnable free
  obtain ⟨reversed, built⟩ := whole.exists_built_turned lawful turnable free
  exact ⟨reversed, (transpose_computes whole.toBuilt ranked).together_iff.mpr ⟨deliverable, built⟩,
    ⟨built, whole.turned_inside lawful⟩, whole.reversed_of_built lawful turnable built,
    whole.turnable_of_built lawful turnable built⟩

end Whole

end View

end DistGraph
