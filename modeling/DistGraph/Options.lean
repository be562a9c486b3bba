import DistGraph.Hash
import DistGraph.Vertex

/-! The choices a construction leaves to its caller, and their digest. -/

namespace DistGraph

/-- How edges with the same endpoints are combined. -/
inductive MergePolicy where
  /-- Keep every one of them. -/
  | keepAll
  /-- Keep one, with the sum of the weights. -/
  | sum
  /-- Keep one, with the least weight. -/
  | min
  /-- Keep one, with the greatest weight. -/
  | max
  /-- Keep the one that was handed in first. -/
  | keepFirst
  deriving DecidableEq, Inhabited

/-- The place of a policy among the policies, as it enters the digest. -/
def MergePolicy.code : MergePolicy → UInt64
  -- Codes follow the order in which the policies are listed.
  | .keepAll => 0
  | .sum => 1
  | .min => 2
  | .max => 3
  | .keepFirst => 4

/-- The order of the new ids within a rank. -/
inductive IdOrder where
  /-- Greatest degree first, equal degrees by old id. -/
  | degreeDescending
  /-- By old id. -/
  | byId
  deriving DecidableEq, Inhabited

/-- The place of an order among the orders, as it enters the digest. -/
def IdOrder.code : IdOrder → UInt64
  -- Codes follow the order in which the orders are listed.
  | .degreeDescending => 0
  | .byId => 1

/-- What a construction does with its edges; every rank has to choose the same. -/
structure Options where
  /-- Add the reverse of every edge whose reverse is missing. -/
  addReverses : Bool := false
  /-- How parallel edges are combined. -/
  mergePolicy : MergePolicy := .keepAll
  /-- Give the vertices dense new ids; otherwise the given ids are kept. -/
  renumber : Bool := true
  /-- Run the checks that need all ranks. -/
  check : Bool := false
  /-- Drop the edges that leave and enter the same vertex. -/
  dropSelfLoops : Bool := false
  /-- The order of the new ids within a rank. -/
  order : IdOrder := .degreeDescending
  /-- Group adjacency by destination instead of source. -/
  transposed : Bool := false
  /-- The number of vertices, all given ids being smaller. -/
  vertexCount : Option UInt64 := none
  /-- The most edges an adjacency segment of several vertices may hold. -/
  segmentBudget : Option UInt64 := none
  deriving DecidableEq, Inhabited

namespace Options

/-- The word of a switch. -/
def switchWord (switch : Bool) : UInt64 :=
  -- A switch that is on counts as one.
  if switch then 1 else 0

/-- The word of a number that need not be given. -/
def limitWord (limit : Option UInt64) : UInt64 :=
  -- No limit is written like the greatest one.
  limit.getD 0xffffffffffffffff

/-- The words of all options in a fixed order. -/
def words (options : Options) : List UInt64 :=
  -- Every option has one word of its own.
  [switchWord options.addReverses, options.mergePolicy.code, switchWord options.renumber,
    switchWord options.check, switchWord options.dropSelfLoops, options.order.code,
    switchWord options.transposed, limitWord options.vertexCount, limitWord options.segmentBudget]

/-- The digest of a sequence of words. -/
def digest (words : List UInt64) : UInt64 :=
  -- Each word is folded into the digest of those before it, and the result is mixed.
  words.foldl (fun digest word => mixBits (digest ^^^ word)) 0x243f6a8885a308d3

/-- The digest by which ranks compare their options. -/
def fingerprint (options : Options) : UInt64 :=
  -- Ranks exchange one word instead of all options.
  digest options.words

end Options

end DistGraph
