import DistGraph.Adjacency.RowTable
import DistGraph.Communicator
import DistGraph.Runs

/-! The stored edges of consecutive vertices of one rank. -/

namespace DistGraph

variable {size : Nat}

/-- An edge as it is stored with its major endpoint. -/
structure HalfEdge where
  /-- The minor endpoint. -/
  target : VertexId
  /-- The weight, if the edge has one. -/
  weight : Option Weight
  /-- The id of the edge, if it has one. -/
  id : Option UInt64
  /-- The kind of the edge, if it has one. -/
  kind : Option Int32
  deriving DecidableEq, Inhabited

namespace HalfEdge

/-- The number of bytes that a stored edge takes together with its place. -/
def cellBytes : Nat := 64

/-- What is stored of a record. -/
def ofRecord (transposed : Bool) (record : EdgeRecord) : HalfEdge :=
  -- The major endpoint follows from the row, and the origin is not kept.
  ⟨record.minor transposed, record.weight?, record.id?, record.kind?⟩

/-- The edge that is stored with a major endpoint. -/
def toEdge (transposed : Bool) (major : VertexId) (stored : HalfEdge) : Edge :=
  -- Transposed storage holds sources with destinations.
  if transposed then ⟨stored.target, major, stored.weight, stored.id, stored.kind⟩
  else ⟨major, stored.target, stored.weight, stored.id, stored.kind⟩

end HalfEdge

/-- The adjacency of consecutive vertices. -/
structure Segment where
  /-- The first vertex. -/
  firstVertex : VertexId
  /-- The number of vertices. -/
  vertexCount : Nat
  /-- One row of stored edges per vertex. -/
  table : RowTable HalfEdge
  /-- Whether any edge has a weight. -/
  hasWeights : Bool

namespace Segment

/-- The vertices of a segment. -/
def range (segment : Segment) : Span :=
  -- A segment lies within the run of its rank.
  ⟨segment.firstVertex, segment.firstVertex + UInt64.ofNat segment.vertexCount⟩

/-- The number of edges of a segment. -/
def edgeCount (segment : Segment) : Nat := segment.table.entryCount

/-- The stored edges of a vertex, counted from the first vertex of the segment. -/
def row (segment : Segment) (index : Nat) : List HalfEdge :=
  -- The table may have more rows than the segment has vertices.
  if index < segment.vertexCount then segment.table.row index else []

/-- The cells of sorted records, the records of one vertex filling a row from its first slot on. -/
def cells (start : VertexId) (transposed : Bool) (records : List EdgeRecord) :
    List (Cell HalfEdge) :=
  -- Records of one vertex are neighbours.
  (runs (fun left right => left.major transposed == right.major transposed) records).flatMap
    fun run => (run.1 :: run.2).zipIdx.map fun (record, slot) =>
      ⟨(run.1.major transposed - start).toNat, slot, .ofRecord transposed record⟩

/-- The segment of given vertices from their sorted records. -/
def build (self : Member size) (transposed : Bool) (vertices : Span)
    (records : List EdgeRecord) : Except Failure Segment := do
  -- Vertices after the last one with an edge get empty rows.
  self.makeRoom HalfEdge.cellBytes records.length
  match RowTable.ofCells (cells vertices.start transposed records) with
  | .error cell => .error (.rejected (.unsortedRows vertices cell.row cell.slot))
  | .ok table => .ok {
      firstVertex := vertices.start
      vertexCount := vertices.length
      table := table.padTo vertices.length
      hasWeights := records.any fun record => record.weight?.isSome }

end Segment

end DistGraph
