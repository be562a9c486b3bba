import DistGraph.Edge.Record

/-! How a rank sorts what it holds. -/

namespace DistGraph

/-- The sorts of a rank, of which none promises an order for entries that compare alike. -/
structure Sorter where
  /-- Records by their sort keys in an orientation. -/
  records : (transposed : Bool) → List EdgeRecord → List EdgeRecord
  /-- Vertex ids in ascending order. -/
  vertices : List VertexId → List VertexId
  /-- Degrees by vertex. -/
  byVertex : List DegreeShare → List DegreeShare
  /-- Degrees with the greatest first, equal ones by vertex. -/
  byDegree : List DegreeShare → List DegreeShare

/-- Whether the key of a record does not come after the key of another. -/
def EdgeRecord.sortsBefore (transposed : Bool) (left right : EdgeRecord) : Bool :=
  -- Keys of the records of one construction differ.
  ((left.sortKey transposed).compare (right.sortKey transposed)).isLE

/-- Whether a degree does not come after another when the greatest comes first. -/
def DegreeShare.ranksBefore (left right : DegreeShare) : Bool :=
  -- Of equal degrees the lesser vertex comes first.
  right.degree < left.degree || (left.degree == right.degree && left.vertex ≤ right.vertex)

/-- The sorts that leave entries that compare alike in the order in which they were. -/
def Sorter.stable : Sorter where
  -- All of them merge sorted halves.
  records transposed entries := entries.mergeSort (EdgeRecord.sortsBefore transposed)
  vertices entries := entries.mergeSort fun left right => left ≤ right
  byVertex entries := entries.mergeSort fun left right => left.vertex ≤ right.vertex
  byDegree entries := entries.mergeSort DegreeShare.ranksBefore

end DistGraph
