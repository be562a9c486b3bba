import DistGraph.Numbering
import DistGraph.Routing

/-! Questions to a numbering of which every rank keeps a part. -/

namespace DistGraph

variable {size ranks : Nat}

namespace Numbering

/-- Asks for ids on the ranks that a route names, and puts the answers in the order asked. -/
def ask (self : Member size) (route : VertexId → Except Failure Nat)
    (known : VertexId → Option VertexId) (ids : List VertexId) :
    Program size Failure (List (Option VertexId)) := do
  -- Each id travels without its position, which is kept here to place the answer.
  let placed ← Grouping.group size (fun entry => route entry.1) ids.zipIdx
  let requests ← Routing.sendGroups self Wire.vertex ⟨placed.items.map Prod.fst, placed.counts⟩
  let answers := requests.items.map fun id => ((known id).map IdReply.ofId).getD .missing
  let replies ← Routing.sendBack self Wire.reply ⟨answers, requests.counts⟩ placed.counts
  let unanswered := Array.replicate ids.length none
  let answered := (placed.items.zip replies).foldl (fun answers (entry, reply) =>
    answers.setIfInBounds entry.2 reply.get?) unanswered
  return answered.toList

/-- The new ids of old ids, each if it belongs to the graph, asked of all ranks. -/
def askNewIds (self : Member size) (numbering : Numbering ranks) (old : List VertexId) :
    Program size Failure (List (Option VertexId)) :=
  -- Unchanged ids are known on every rank.
  if numbering.isIdentity then return old.map numbering.newId?
  else ask self (fun id => Failure.ofDefect (homeRank id size)) numbering.newId? old

/-- The old ids of new ids, each if it belongs to the graph, asked of all ranks. -/
def askOldIds (self : Member size) (numbering : Numbering ranks) (new : List VertexId) :
    Program size Failure (List (Option VertexId)) :=
  -- Ids that no rank owns are asked for here, where they are not known either.
  if numbering.isIdentity then return new.map numbering.oldId?
  else ask self (fun id => .ok ((numbering.partition.owner? id).getD numbering.rank))
    numbering.oldId? new

/-- The whole numbering, gathered on every rank. -/
def gatherAll (self : Member size) (numbering : Numbering ranks) :
    Program size Failure (Numbering 1) := do
  -- Labels arrive by rank, which is the order of the new ids.
  let whole ← Failure.ofDefect (Partition.ofCounts #v[numbering.vertexCount])
  match numbering.labels with
  | none => return identity whole 0
  | some labels => do
    self.makeRoom Wire.vertex.bytes (labels.length * size)
    let copies := (List.replicate size labels).flatten
    let counts := List.replicate size (Int32.ofNat labels.length)
    let received ← Routing.sendGroups self Wire.vertex ⟨copies, counts⟩
    Failure.ofDefect (ofLabels whole 0 received.items)

end Numbering

end DistGraph
