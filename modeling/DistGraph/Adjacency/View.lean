import DistGraph.Adjacency.Segment
import DistGraph.Partition

/-! The share of a rank in a distributed graph, and what can be asked of it locally. -/

namespace DistGraph

/-- The edges whose major endpoint a rank owns. -/
structure View (size : Nat) where
  /-- The rank. -/
  rank : Fin size
  /-- Which rank owns which vertex. -/
  partition : Partition size
  /-- Whether edges are grouped by destination instead of source. -/
  transposed : Bool
  /-- The adjacency of the rank's vertices, cut into segments. -/
  segments : Array Segment
  /-- The most edges a segment of several vertices may hold. -/
  segmentBudget : Option UInt64
  /-- The number of edges over all ranks. -/
  globalEdgeCount : UInt64

namespace View

variable {size : Nat}

/-- The vertices a rank owns. -/
def range (view : View size) : Span :=
  -- Ownership follows from the partition.
  view.partition.spanOf view.rank

/-- The number of vertices over all ranks. -/
def vertexCount (view : View size) : UInt64 :=
  -- The partition covers all vertices.
  view.partition.vertexCount

/-- The number of edges on this rank. -/
def edgeCount (view : View size) : Nat :=
  -- Every edge lies in one segment.
  (view.segments.toList.map Segment.edgeCount).foldr (· + ·) 0

/-- The segment that a vertex falls into by the segments' first vertices, and its row there. -/
def locateVertex? (view : View size) (vertex : VertexId) : Option (Segment × Nat) :=
  -- The last segment that starts at or before the vertex is the only one that may hold it.
  let started := Search.partitionPoint view.segments.size fun i =>
    match view.segments[i]? with
    | some segment => segment.firstVertex ≤ vertex
    | none => false
  match view.segments[started - 1]? with
  | some segment =>
    let row := (vertex - segment.firstVertex).toNat
    if started ≠ 0 ∧ row < segment.vertexCount then some (segment, row) else none
  | none => none

/-- The segment and row of a vertex that is given by its place among the rank's vertices. -/
def locatePlace (view : View size) (place : UInt64) : Except Defect (Option (Segment × Nat)) := do
  -- A place too far out has no vertex id at all.
  return view.locateVertex? (← Word.add view.range.start place)

/-- The stored edges of a vertex that is given by its place among the rank's vertices. -/
def storedAt (view : View size) (place : UInt64) : Except Defect (Option (List HalfEdge)) := do
  -- Places after the last vertex have no row.
  return (← view.locatePlace place).map fun (segment, row) => segment.row row

/-- The stored edges of a vertex, none if another rank owns it. -/
def halfEdges (view : View size) (vertex : VertexId) : List HalfEdge :=
  -- Ids of other ranks and ids beyond all ranks are treated alike.
  if view.range.contains vertex then
    match view.locateVertex? vertex with
    | some (segment, row) => segment.row row
    | none => []
  else []

/-- The neighbours of a vertex with the weights of the edges between. -/
def neighbors (view : View size) (vertex : VertexId) : List (VertexId × Option Weight) :=
  -- Parallel edges name their neighbour more than once.
  (view.halfEdges vertex).map fun stored => (stored.target, stored.weight)

/-- The edges of a vertex in the direction in which they were handed in. -/
def edgesAt (view : View size) (vertex : VertexId) : List Edge :=
  -- The vertex is the major endpoint of all of them.
  (view.halfEdges vertex).map (HalfEdge.toEdge view.transposed vertex)

/-- The number of edges of a vertex. -/
def degree (view : View size) (vertex : VertexId) : Nat :=
  -- Parallel edges count separately.
  (view.halfEdges vertex).length

/-- All edges of this rank, grouped by major endpoint. -/
def edges (view : View size) : List Edge :=
  -- Vertices come in ascending order.
  view.range.toList.flatMap view.edgesAt

end View

end DistGraph
