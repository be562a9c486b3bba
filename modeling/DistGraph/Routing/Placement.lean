import DistGraph.Edge.Record
import DistGraph.Error
import DistGraph.Partition

/-! The rules by which edges find their rank. -/

namespace DistGraph

/-- How the rank of an edge is chosen. -/
inductive Placement where
  /-- The owner of the major endpoint under a partition. -/
  | byOwner {ranks : Nat} (partition : Partition ranks) (transposed : Bool)
  /-- The hash of the major endpoint. -/
  | byHash (transposed : Bool)
  /-- The hash of the lesser endpoint, the same for an edge and its reverse. -/
  | byPair

namespace Placement

/-- The name of a placement. -/
def name : Placement → String
  -- The orientation is not part of the name.
  | .byOwner .. => "vertex owner"
  | .byHash _ => "hashed major vertex"
  | .byPair => "undirected pair"

/-- The rank, out of a number of ranks, on which both directions of an edge meet. -/
def pairOwner (record : EdgeRecord) (ranks : Nat) : Except Defect Nat :=
  -- The constant keeps these ranks apart from the home ranks of the endpoints.
  let lesser := if record.src ≤ record.dst then record.src else record.dst
  if ranks = 0 then .error .divisionByZero
  else .ok ((mixBits (lesser ^^^ 0x5bd1e995)).toNat % ranks)

/-- The rank a record goes to. -/
def destination (placement : Placement) (ranks : Nat) (record : EdgeRecord) : Except Failure Nat :=
  -- Only ids outside of a partition have no rank to go to.
  match placement with
  | .byOwner partition transposed =>
    match partition.owner? (record.major transposed) with
    | some owner => .ok owner
    | none => .error (.rejected (.vertexOutside (record.major transposed) partition.vertexCount))
  | .byHash transposed => Failure.ofDefect (homeRank (record.major transposed) ranks)
  | .byPair => Failure.ofDefect (pairOwner record ranks)

end Placement

end DistGraph
