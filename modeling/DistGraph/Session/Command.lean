import DistGraph.Construction
import DistGraph.Numbering.Inquiry

/-! What a rank can be told to do, one command after another. -/

namespace DistGraph.Session

/-- How the ranks of loose items are chosen. -/
inductive Route where
  /-- The remainder by the number of ranks. -/
  | modulo
  /-- The rank that numbers the vertex with the same id. -/
  | home
  /-- The item is its rank. -/
  | itself
  deriving DecidableEq

/-- The rank that a route chooses out of a number of ranks. -/
def Route.rank (route : Route) (ranks : Nat) (item : UInt64) : Except Defect Nat :=
  -- The last route may name a rank that does not exist.
  match route with
  | .modulo => if ranks = 0 then .error .divisionByZero else .ok (item.toNat % ranks)
  | .home => homeRank item ranks
  | .itself => .ok item.toNat

/-- The rank of an item, refused when the item exceeds a limit. -/
def Route.destination (route : Route) (limit : Option UInt64) (ranks : Nat) (item : UInt64) :
    Except Failure Nat :=
  -- The limit is checked before the route is taken.
  match limit with
  | some most =>
    if most < item then .error (.rejected (.stated s!"item {item} over {most}"))
    else Failure.ofDefect (route.rank ranks item)
  | none => Failure.ofDefect (route.rank ranks item)

/-- A command that takes part in one communication of all ranks. -/
inductive Exchange where
  /-- Send every rank a count. -/
  | allToAll (counts : List Int32)
  /-- Send every rank a block of words. -/
  | allToAllV (items : List UInt64) (sendCounts : List Int32) (room : Nat)
      (recvCounts : List Int32)
  /-- Gather a value from every rank. -/
  | allGather (wire : Wire) (value : wire.Value)
  /-- Combine a word from every rank. -/
  | allReduce (reduction : Communicator.Reduction) (value : UInt64)
  /-- Sum the words of lower ranks and of all ranks. -/
  | exclusiveScan (value : UInt64)
  /-- Wait for all ranks. -/
  | barrier
  /-- Send words that are grouped already. -/
  | grouped (sent : Grouped UInt64)
  /-- Send answers back to where requests came from. -/
  | reply (answers : Grouped UInt64) (expected : List Int32)
  /-- Send words where a route leads. -/
  | routed (items : List UInt64) (route : Route) (limit : Option UInt64)
  /-- Send records where a placement leads, if there is such a placement. -/
  | records (records : List EdgeRecord) (placement : Except Defect Placement)

/-- A command that builds something to be remembered. -/
inductive Build where
  /-- Number the vertices of records. -/
  | assign (records : List EdgeRecord) (vertices : List VertexId) (order : IdOrder)
      (transposed : Bool)
  /-- Construct a graph. -/
  | construct (edges : List Edge) (vertices : List VertexId) (options : Options)
  /-- Construct a graph again from the edges of the remembered view. -/
  | rebuild (options : Options)
  /-- Turn all edges of the remembered view around. -/
  | transpose
  /-- Gather the whole remembered numbering. -/
  | gatherAll

/-- A command that asks about what is remembered. -/
inductive Question where
  /-- The new ids of old ones, asked of all ranks. -/
  | askNewIds (old : List VertexId)
  /-- The old ids of new ones, asked of all ranks. -/
  | askOldIds (new : List VertexId)
  /-- The view. -/
  | view
  /-- The numbering. -/
  | numbering
  /-- The new ids that are known on this rank. -/
  | newId (old : List VertexId)
  /-- The old ids that are known on this rank. -/
  | oldId (new : List VertexId)
  /-- What the view tells of vertices. -/
  | vertices (ids : List VertexId)
  /-- What the view tells of places. -/
  | places (places : List UInt64)
  /-- What every segment tells of a row. -/
  | segmentRows (row : Nat)

/-- A command to a rank. -/
inductive Command where
  /-- Describe the rank and its communicator. -/
  | describe
  /-- Clean up records. -/
  | tidy (records : List EdgeRecord) (policy : MergePolicy)
      (dropSelfLoops closeUnderReversal : Bool)
  /-- Communicate with the other ranks. -/
  | communicate (exchange : Exchange)
  /-- Build something and remember it. -/
  | build (construction : Build)
  /-- Ask about what is remembered. -/
  | ask (question : Question)

/-- What the view of a rank tells of a vertex. -/
structure VertexReport where
  /-- Whether the rank owns the vertex. -/
  isLocal : Bool
  /-- The rank that owns the vertex, if any does. -/
  owner : Option Nat
  /-- The number of its edges on this rank. -/
  degree : Nat
  /-- Its neighbours with the weights of the edges between. -/
  neighbors : List (VertexId × Option Weight)
  /-- Its edges in the direction in which they were handed in. -/
  edges : List Edge

/-- What the view of a rank tells of a place. -/
structure PlaceReport where
  /-- The vertices of the segment that holds the place, and the row there. -/
  location : Option (Span × Nat)
  /-- The stored edges of the vertex at the place. -/
  row : Option (List HalfEdge)

/-- What a segment tells of a row. -/
structure RowReport where
  /-- The stored edges of the row. -/
  row : List HalfEdge
  /-- The number of rows in the segment's table. -/
  tableRows : Nat
  /-- The number of entries in the segment's table. -/
  tableEntries : Nat

/-- What a rank answers to a command. -/
inductive Answer (size : Nat) where
  /-- The rank, its memory limit and the number of exchanges it issued. -/
  | description (rank : Nat) (memory : Option UInt64) (issued : Nat)
  /-- Counts in rank order. -/
  | counts (counts : List Int32)
  /-- Words. -/
  | words (words : List UInt64)
  /-- A value from every rank. -/
  | gathered (wire : Wire) (values : List wire.Value)
  /-- A single word. -/
  | word (word : UInt64)
  /-- The sum of the words of lower ranks and the sum of all. -/
  | scanned (before total : UInt64)
  /-- All ranks have arrived. -/
  | arrived
  /-- Words grouped by the rank they came from. -/
  | grouped (received : Grouped UInt64)
  /-- Records. -/
  | records (records : List EdgeRecord)
  /-- A numbering with the records relabelled by it. -/
  | assigned {ranks : Nat} (numbering : Numbering ranks) (records : List EdgeRecord)
  /-- A constructed graph. -/
  | constructed (graph : Constructed size)
  /-- A view. -/
  | view (view : View size)
  /-- A numbering. -/
  | numbering {ranks : Nat} (numbering : Numbering ranks)
  /-- Ids that were asked of all ranks, each if there is one. -/
  | foundIds (ids : List (Option VertexId))
  /-- Ids looked up on this rank, each with its own refusal. -/
  | lookedUp (ids : List (Except OperationError VertexId))
  /-- What a view tells of vertices. -/
  | vertices (reports : List VertexReport)
  /-- What a view tells of places. -/
  | places (reports : List PlaceReport)
  /-- What the segments of a view tell of a row. -/
  | segmentRows (reports : List RowReport)

end DistGraph.Session
