import DistGraph.Defect
import DistGraph.Hash

/-! Vertex ids, the degrees counted for them and the answers to questions about them. -/

namespace DistGraph

/-- The id of a vertex, before or after renumbering. -/
abbrev VertexId := UInt64

/-- A run of consecutive vertex ids, its stop excluded. -/
structure Span where
  /-- The first id of the run. -/
  start : VertexId
  /-- The first id after the run. -/
  stop : VertexId
  deriving DecidableEq, Inhabited

/-- Whether an id lies in a span. -/
def Span.contains (span : Span) (vertex : VertexId) : Bool :=
  -- The start belongs to the span and the stop does not.
  span.start ≤ vertex && vertex < span.stop

/-- How many ids a span holds. -/
def Span.length (span : Span) : Nat :=
  -- A span that ends before it starts holds nothing.
  span.stop.toNat - span.start.toNat

/-- The ids of a span in ascending order. -/
def Span.toList (span : Span) : List VertexId :=
  -- No id of a span passes its stop, so counting from the start does not wrap.
  (List.range span.length).map fun i => span.start + UInt64.ofNat i

/-- The text of a span, its two ends with dots between. -/
def Span.render (span : Span) : String :=
  -- Both ends are written in decimal.
  s!"{span.start}..{span.stop}"

/-- A vertex together with the part of its degree that has been counted so far. -/
structure DegreeShare where
  /-- The vertex. -/
  vertex : VertexId
  /-- The number of edges counted for it. -/
  degree : UInt64
  deriving DecidableEq, Inhabited

/-- The answer to a question for the id of a vertex, in the fixed form that is exchanged. -/
structure IdReply where
  /-- The id that was found, and zero if there is none. -/
  id : VertexId
  /-- One if an id was found, and zero otherwise. -/
  found : UInt8
  deriving DecidableEq, Inhabited

/-- The answer that gives an id. -/
def IdReply.ofId (id : VertexId) : IdReply :=
  -- The mark tells a found zero from a missing id.
  ⟨id, 1⟩

/-- The answer that there is no id. -/
def IdReply.missing : IdReply :=
  -- Both fields are zero.
  ⟨0, 0⟩

/-- The id an answer gives, if it gives one. -/
def IdReply.get? (reply : IdReply) : Option VertexId :=
  -- Any mark but zero counts as found.
  if reply.found ≠ 0 then some reply.id else none

/-- The rank, out of a number of ranks, that keeps the number of a vertex. -/
def homeRank (vertex : VertexId) (ranks : Nat) : Except Defect Nat :=
  -- The owner hangs on the id and the number of ranks alone, so every rank names the same one.
  if ranks = 0 then .error .divisionByZero else .ok ((mixBits vertex).toNat % ranks)

end DistGraph
