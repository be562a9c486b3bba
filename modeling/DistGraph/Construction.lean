import DistGraph.Adjacency.Build
import DistGraph.Construction.Checks
import DistGraph.Numbering.Assign

/-! One distributed graph built from the edges that all ranks hold. -/

namespace DistGraph

variable {size : Nat}

/-- The part of a constructed graph that one rank keeps. -/
structure Constructed (size : Nat) where
  /-- The adjacency of the rank's vertices, by new ids. -/
  view : View size
  /-- The old ids of the rank's vertices. -/
  numbering : Numbering size
  /-- Which rank owns which new id. -/
  partition : Partition size

namespace Construction

/-- The least vertex count above all ids that the records and the list of a rank name. -/
def vertexBound (records : List EdgeRecord) (vertices : List VertexId) :
    Except Failure UInt64 :=
  -- Nothing lies above the greatest word.
  let named := (records.flatMap fun record => [record.src, record.dst]) ++ vertices
  match named.max? with
  | none => .ok 0
  | some most =>
    if most = 0xffffffffffffffff then .error (.rejected (.idTooLarge most)) else .ok (most + 1)

/-- The number of vertices of a graph that keeps its ids. -/
def countVertices (records : List EdgeRecord) (vertices : List VertexId) (options : Options) :
    Program size Failure UInt64 :=
  -- A number that is not given is the least that suits all ranks.
  match options.vertexCount with
  | some count => return count
  | none => do
    let bound ← vertexBound records vertices
    (Communicator.allReduce .max bound).mapError .ofGraph

/-- Moves records to where all parallel ones meet, and all reverses if those are to be added. -/
def gatherParallel (self : Member size) (options : Options) (otherwise : Placement)
    (records : List EdgeRecord) : Program size Failure (List EdgeRecord) := do
  -- There they are merged and completed before they move on.
  let meeting := if options.addReverses then .byPair else otherwise
  let received ← Routing.sendRecords self meeting records
  return Cleanup.tidy self.sorter options.mergePolicy false options.addReverses received

/-- The graph on new ids, which are given out once the edges are cleaned up. -/
def onNewIds (self : Member size) (records : List EdgeRecord) (vertices : List VertexId)
    (options : Options) : Program size Failure (Constructed size) := do
  -- The partition comes with the new ids, so the owners of edges are known only then.
  let clean ← gatherParallel self options (.byHash options.transposed) records
  let (numbering, relabelled) ←
    Numbering.assign self clean vertices options.order options.transposed
  let partition := numbering.partition
  let placed ← Routing.sendRecords self (.byOwner partition options.transposed) relabelled
  let view ← View.build self placed partition options.transposed options.segmentBudget
  return ⟨view, numbering, partition⟩

/-- The graph on the given ids, which are shared out evenly. -/
def onGivenIds (self : Member size) (records : List EdgeRecord) (vertices : List VertexId)
    (options : Options) : Program size Failure (Constructed size) := do
  -- The owner of an edge sees all parallel ones, so only added reverses make edges move twice.
  let vertexCount ← countVertices records vertices options
  let partition ← Failure.ofDefect (Partition.even vertexCount size)
  let owner := Placement.byOwner partition options.transposed
  let clean ← gatherParallel self options owner records
  let placed ←
    if options.addReverses then Routing.sendRecords self owner clean else pure clean
  let view ← View.build self placed partition options.transposed options.segmentBudget
  return ⟨view, .identity partition self.rank, partition⟩

/-- Fails on every rank if the graphs of the ranks differ in size. -/
def compareSizes (constructed : Constructed size) : Program size Failure Unit := do
  -- Only ranks that were given different options can differ.
  let counts ← (Communicator.allGather Wire.word constructed.partition.vertexCount).mapError
    Failure.ofGraph
  if allEqual counts.toList then return () else .fail (.diverged .vertexCount)

/-- The records of the edges of a rank, without self-loops if those are to be removed. -/
def recordsOf (self : Member size) (edges : List Edge) (options : Options) :
    Except Failure (List EdgeRecord) := do
  -- Edges keep their positions from before the removal.
  self.makeRoom Wire.record.bytes edges.length
  let records := EdgeRecord.ofEdges self.rank edges
  return if options.dropSelfLoops then Cleanup.withoutSelfLoops records else records

/-- The graph of the edges and the listed vertices of all ranks. -/
def construct (self : Member size) (edges : List Edge) (vertices : List VertexId)
    (options : Options) : Program size Failure (Constructed size) := do
  -- Every rank takes part with its own share, which may be empty.
  checkInput self edges vertices options
  let records ← recordsOf self edges options
  let constructed ←
    if options.renumber then onNewIds self records vertices options
    else onGivenIds self records vertices options
  if options.check then compareSizes constructed
  return constructed

end Construction

end DistGraph
