import DistGraph.Adjacency.View
import DistGraph.Cleanup
import DistGraph.Routing

/-! Views built from the records that have reached their owner. -/

namespace DistGraph

variable {size : Nat}

namespace Segment

/-- Cuts sorted records of consecutive vertices before every vertex that a budget leaves no room for. -/
def cut (budget : Nat) (transposed : Bool) (stop first : VertexId) (held : List EdgeRecord) :
    (vertices : List VertexId) → (records : List EdgeRecord) → List (Span × List EdgeRecord)
  -- The records of one vertex are never parted, so a vertex may exceed the budget by itself.
  | [], records => [(⟨first, stop⟩, held ++ records)]
  | vertex :: vertices, records =>
    let own := records.takeWhile fun record => record.major transposed == vertex
    let later := records.drop own.length
    if first < vertex ∧ budget < held.length + own.length then
      (⟨first, vertex⟩, held) :: cut budget transposed stop vertex own vertices later
    else cut budget transposed stop first (held ++ own) vertices later

/-- The pieces of a run of vertices that become segments, with their records. -/
def pieces (budget : Option UInt64) (transposed : Bool) (vertices : Span)
    (records : List EdgeRecord) : List (Span × List EdgeRecord) :=
  -- A budget of nothing still lets every vertex have a segment.
  match budget with
  | none => [(vertices, records)]
  | some most =>
    cut (max most.toNat 1) transposed vertices.stop vertices.start [] vertices.toList records

/-- The segments of a run of vertices from their sorted records. -/
def buildAll (self : Member size) (budget : Option UInt64) (transposed : Bool) (vertices : Span)
    (records : List EdgeRecord) : Except Failure (List Segment) :=
  -- Segments are made from the first vertices on.
  (pieces budget transposed vertices records).mapM fun (span, own) =>
    build self transposed span own

end Segment

namespace View

/-- The first record whose major endpoint this rank does not own. -/
def stray? (range : Span) (transposed : Bool) (records : List EdgeRecord) : Option VertexId :=
  -- Such a record shows that ranks see ownership differently.
  (records.map fun record => record.major transposed).find? fun vertex => !range.contains vertex

/-- The view of a rank from the records that it received as their owner. -/
def build (self : Member size) (records : List EdgeRecord) (partition : Partition size)
    (transposed : Bool) (segmentBudget : Option UInt64) : Program size Failure (View size) := do
  -- All ranks learn the number of edges before any of them stores its share.
  let range := partition.spanOf self.rank
  if let some vertex := stray? range transposed records then
    .fail (.diverged (.ownership vertex))
  else
    let sorted := self.sorter.records transposed records
    let globalEdgeCount ←
      (Communicator.allReduce .sum (UInt64.ofNat sorted.length)).mapError .ofGraph
    let segments ← Segment.buildAll self segmentBudget transposed range sorted
    return {
      rank := self.rank, partition, transposed, segments := segments.toArray
      segmentBudget, globalEdgeCount }

/-- The view of the graph with every edge turned around, in the same orientation. -/
def transpose (self : Member size) (view : View size) : Program size Failure (View size) := do
  -- Turned edges have new major endpoints, so they move to the owners of those.
  let turned := EdgeRecord.ofEdges self.rank (view.edges.map Edge.reversed)
  let received ← Routing.sendRecords self (.byOwner view.partition view.transposed) turned
  build self received view.partition view.transposed view.segmentBudget

end View

end DistGraph
