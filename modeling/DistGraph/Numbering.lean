import DistGraph.Error
import DistGraph.Partition

/-! The new ids that the vertices of a graph have in place of their old ones. -/

namespace DistGraph

/-- The part of a numbering that one of the ranks keeps that share the new ids. -/
structure Numbering (ranks : Nat) where
  /-- Which rank owns which new id. -/
  partition : Partition ranks
  /-- The rank that keeps this part. -/
  rank : Fin ranks
  /-- The old ids of the rank's vertices by new id, if ids have changed at all. -/
  labels : Option (List VertexId)

namespace Numbering

variable {ranks : Nat}

/-- The numbering of a graph whose ids have not changed. -/
def identity (partition : Partition ranks) (rank : Fin ranks) : Numbering ranks :=
  -- No label has to be kept.
  ⟨partition, rank, none⟩

/-- The numbering that gives consecutive new ids to the distinct ones among some old ids. -/
def ofLabels (partition : Partition ranks) (rank : Fin ranks) (labels : List VertexId) :
    Except Defect (Numbering ranks) :=
  -- The distinct labels fill the run of the rank exactly.
  if labels.eraseDups.length = (partition.countOf rank).toNat then
    .ok ⟨partition, rank, some labels.eraseDups⟩
  else .error .labelCount

/-- Whether ids have not changed. -/
def isIdentity (numbering : Numbering ranks) : Bool :=
  -- Only changed ids need labels.
  numbering.labels.isNone

/-- The number of vertices over all ranks. -/
def vertexCount (numbering : Numbering ranks) : UInt64 :=
  -- The partition covers all new ids.
  numbering.partition.vertexCount

/-- The new ids whose old ids are kept here. -/
def range (numbering : Numbering ranks) : Span :=
  -- A rank keeps the old ids of the vertices it owns.
  numbering.partition.spanOf numbering.rank

/-- Whether there is no vertex on any rank. -/
def isEmpty (numbering : Numbering ranks) : Bool :=
  -- All ranks agree on it.
  numbering.vertexCount == 0

/-- The new id of an old id that is known here. -/
def newId? (numbering : Numbering ranks) (old : VertexId) : Option VertexId :=
  -- The place of a label in the run of the rank is the place of its new id.
  match numbering.labels with
  | none => if old < numbering.vertexCount then some old else none
  | some labels => (labels.idxOf? old).map fun i => numbering.range.start + UInt64.ofNat i

/-- The old id of a new id that is known here. -/
def oldId? (numbering : Numbering ranks) (new : VertexId) : Option VertexId :=
  -- Labels are known for the run of the rank only.
  match numbering.labels with
  | none => if new < numbering.vertexCount then some new else none
  | some labels =>
    if numbering.range.contains new then labels[(new - numbering.range.start).toNat]? else none

/-- The new id of an old id, refused when it is not known here. -/
def newId (numbering : Numbering ranks) (old : VertexId) : Except OperationError VertexId :=
  -- Another rank may know it all the same.
  match numbering.newId? old with
  | some new => .ok new
  | none => .error (.unknownId old)

/-- The old id of a new id, refused when it is not known here. -/
def oldId (numbering : Numbering ranks) (new : VertexId) : Except OperationError VertexId :=
  -- Another rank may know it all the same.
  match numbering.oldId? new with
  | some old => .ok old
  | none => .error (.unknownId new)

/-- The old and new ids kept here, by new id. -/
def pairs (numbering : Numbering ranks) : List (VertexId × VertexId) :=
  -- Unchanged ids are paired with themselves.
  match numbering.labels with
  | none => numbering.range.toList.map fun vertex => (vertex, vertex)
  | some labels => labels.zipIdx.map fun (old, i) =>
    (old, numbering.range.start + UInt64.ofNat i)

end Numbering

end DistGraph
