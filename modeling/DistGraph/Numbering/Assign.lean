import DistGraph.Numbering
import DistGraph.Numbering.Degrees
import DistGraph.Routing

/-! New ids for all vertices of a distributed list of edges. -/

namespace DistGraph

variable {size : Nat}

namespace Numbering

/-- The rank that numbers a vertex. -/
def assigner (size : Nat) (vertex : VertexId) : Except Failure Nat :=
  -- Every rank finds it without asking.
  Failure.ofDefect (homeRank vertex size)

/-- The new id that is sent back for an old one. -/
def answer (numbering : Numbering size) (old : VertexId) : Except Failure UInt64 :=
  -- A rank is only ever asked for vertices that it was told of before.
  match numbering.newId? old with
  | some new => .ok new
  | none => .error (.diverged (.numbering old))

/-- The new ids that are sent back for old ones. -/
def answers (numbering : Numbering size) (old : List VertexId) : Except Failure (List UInt64) :=
  -- The first vertex without a number decides the failure.
  old.mapM numbering.answer

/-- A record with its endpoints replaced by what a table holds for them. -/
def relabel (table : List (VertexId × VertexId)) (record : EdgeRecord) :
    Except Defect EdgeRecord :=
  -- The table holds every endpoint of the records it was made for.
  match table.lookup record.src, table.lookup record.dst with
  | some src, some dst => .ok { record with src := src, dst := dst }
  | _, _ => .error .outOfRange

/-- The vertices a rank has to number: those sent to it, merged and put in order. -/
def gatherOwned (self : Member size) (order : IdOrder) (named : List DegreeShare) :
    Program size Failure (List DegreeShare) := do
  -- Degrees of one vertex meet on the rank that numbers it.
  let received ← Routing.send self Wire.degree (fun entry => assigner size entry.vertex) named
  let owned ← Failure.ofDefect (Degrees.merge self.sorter received.items)
  return Degrees.arrange self.sorter order owned

/-- The numbering in which every rank numbers its own vertices after those of the ranks before it. -/
def number (self : Member size) (owned : List DegreeShare) :
    Program size Failure (Numbering size) := do
  -- The runs of new ids follow rank order.
  let counts ←
    (Communicator.allGather Wire.word (UInt64.ofNat owned.length)).mapError Failure.ofGraph
  let partition ← Failure.ofDefect (Partition.ofCounts counts)
  Failure.ofDefect (ofLabels partition self.rank (owned.map DegreeShare.vertex))

/-- The old and new ids of vertices, asked of the ranks that number them. -/
def resolve (self : Member size) (numbering : Numbering size) (vertices : List VertexId) :
    Program size Failure (List (VertexId × VertexId)) := do
  -- Answers come back in the order in which the requests were grouped.
  let requested ← Grouping.group size (assigner size) vertices
  let requests ← Routing.sendGroups self Wire.vertex requested
  let found ← numbering.answers requests.items
  let ids ← Routing.sendBack self Wire.word ⟨found, requests.counts⟩ requested.counts
  return requested.items.zip ids

/-- Numbers all vertices that the ranks name, and relabels the records of this rank. -/
def assign (self : Member size) (records : List EdgeRecord) (vertices : List VertexId)
    (order : IdOrder) (transposed : Bool) :
    Program size Failure (Numbering size × List EdgeRecord) := do
  -- Degrees are counted before the ids change, by the major endpoint.
  let named ← Degrees.named self records vertices transposed
  let owned ← gatherOwned self order named
  let numbering ← number self owned
  let table ← resolve self numbering (named.map DegreeShare.vertex)
  let relabelled ← Failure.ofDefect (records.mapM (relabel table))
  return (numbering, relabelled)

end Numbering

end DistGraph
