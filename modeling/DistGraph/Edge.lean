import DistGraph.Vertex
import DistGraph.Weight

/-! Edges as they are handed in and read back. -/

namespace DistGraph

/-- A directed edge with the attributes it may carry. -/
structure Edge where
  /-- The vertex the edge leaves. -/
  src : VertexId
  /-- The vertex the edge enters. -/
  dst : VertexId
  /-- The weight, if the edge has one. -/
  weight : Option Weight
  /-- The id of the edge, if it has one. -/
  id : Option UInt64
  /-- The kind of the edge, if it has one. -/
  kind : Option Int32
  deriving DecidableEq, Inhabited

namespace Edge

/-- The edge between the same endpoints in the other direction. -/
def reversed (edge : Edge) : Edge :=
  -- Attributes stay as they are.
  { edge with src := edge.dst, dst := edge.src }

/-- Whether two edges are equal, weights being compared as numbers. -/
def equal (left right : Edge) : Bool :=
  -- Two absent weights are equal, and an absent weight equals no present one.
  left.src == right.src && left.dst == right.dst && left.id == right.id &&
    left.kind == right.kind &&
    match left.weight, right.weight with
    | some a, some b => a.equal b
    | none, none => true
    | _, _ => false

end Edge

end DistGraph
