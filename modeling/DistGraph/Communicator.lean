import DistGraph.Memory
import DistGraph.Program
import DistGraph.Program.Wire
import DistGraph.Sorter
import DistGraph.Word

/-! What a rank can do together with all other ranks. -/

namespace DistGraph

/-- A rank of a communicator with what it brings to the work. -/
structure Member (size : Nat) where
  /-- The rank. -/
  rank : Fin size
  /-- The most bytes of a single buffer, if there is a limit. -/
  memory : Option UInt64
  /-- How the rank sorts. -/
  sorter : Sorter := .stable

variable {size : Nat}

/-- Grants a rank a buffer for a number of items. -/
def Member.makeRoom (self : Member size) (bytes length : Nat) : Except Failure Unit :=
  -- Each buffer is held against the limit by itself.
  (Memory.reserve self.memory bytes length).mapError .graph

namespace Count

/-- A sum of counts, refused when it does not fit a count. -/
def add (a b : Int32) : Except Defect Int32 :=
  -- Counts are signed words of 32 bits.
  let total := a.toInt + b.toInt
  if Int32.minValue.toInt ≤ total ∧ total ≤ Int32.maxValue.toInt then .ok (Int32.ofInt total)
  else .error .overflow

/-- The totals of counts, refused when one does not fit a count. -/
def totals (start : Int32) : List Int32 → Except Defect (List Int32)
  -- The start is not among them.
  | [] => .ok []
  | count :: counts => do
    let next ← add start count
    return next :: (← totals next counts)

/-- The length that a count stands for. -/
def length (count : Int32) : UInt64 :=
  -- A negative count stands for the length with the same bits, its sign repeated.
  count.toInt64.toUInt64

/-- The length of all items that are counted, refused when it does not fit a word. -/
def total (counts : List Int32) : Except Defect UInt64 :=
  -- Lengths are added one by one.
  Word.sum (counts.map length)

end Count

/-- Cuts blocks of given lengths off the front of a list, one after the other. -/
def cutBlocks {α : Type} (items : List α) : List Int32 → Except Defect (List (List α))
  -- A block has to lie within what the blocks before it have left over.
  | [] => .ok []
  | count :: counts =>
    if 0 ≤ count.toInt ∧ count.toInt ≤ items.length then do
      let rest ← cutBlocks (items.drop count.toNatClampNeg) counts
      return items.take count.toNatClampNeg :: rest
    else .error .outOfRange

/-- One block is cut for every count. -/
theorem cutBlocks_length {α : Type} {items : List α} {counts : List Int32}
    {blocks : List (List α)} (cut : cutBlocks items counts = .ok blocks) :
    blocks.length = counts.length := by
  -- A block that can be cut is followed by the blocks of the other counts.
  induction counts generalizing items blocks with
  | nil => simp only [cutBlocks, Except.ok.injEq] at cut; simp [← cut]
  | cons count counts ih =>
    simp only [cutBlocks] at cut
    split at cut
    · obtain ⟨others, rest, joined⟩ := bind_eq_ok_iff.mp cut
      cases joined
      simp [ih rest]
    · simp at cut

/-- Puts the blocks from all ranks one after the other into a buffer with a given room. -/
def fillBlocks {α : Type} (room : Nat) : List (Nat × Int32 × List α) → Except Failure (List α)
  -- Each block is held against its announced count and then against the room that is left.
  | [] => .ok []
  | (peer, count, block) :: blocks => do
    if block.length ≠ (Count.length count).toNat then
      .error (.comm (.otherLength peer (Count.length count).toNat block.length))
    else if room < block.length then .error (.defect .outOfRange)
    else return block ++ (← fillBlocks (room - block.length) blocks)

namespace Communicator

/-- The text that describes a rank's side of a communicator. -/
def render (rank size issued : Nat) : String :=
  -- The number of exchanges issued comes last.
  s!"ThreadComm \x7b rank: {rank}, size: {size}, seq: {issued} \x7d"

section Generic

variable [Payloads]

/-- Sends a count to every rank and returns the counts received, in rank order. -/
def allToAll (counts : List Int32) : Program size Failure (List Int32) :=
  -- The entry for a rank is what that rank receives.
  if shape : counts.length = size then do
    let received ← Program.issue .counts ⟨counts.toArray, by simpa using shape⟩
    return received.toList
  else .fail (.comm (.listLength size counts.length))

/-- Fills a buffer with a given room from the blocks of all ranks. -/
def fillBuffer (tag : Payloads.Tag) (room : Nat) (counts : List Int32)
    (blocks : List (List (Payloads.Value tag))) :
    Except Failure (List (Payloads.Value tag)) := do
  -- Room that no block reaches keeps its first filling.
  let _ ← Failure.ofDefect (Count.totals 0 counts)
  let filled ← fillBlocks room ((List.range blocks.length).zip (counts.zip blocks))
  return filled ++ List.replicate (room - filled.length) (Payloads.empty tag)

/-- Sends a block of items to every rank and returns a buffer filled with the blocks received. -/
def allToAllV (tag : Payloads.Tag) (items : List (Payloads.Value tag)) (sendCounts : List Int32)
    (room : Nat) (recvCounts : List Int32) : Program size Failure (List (Payloads.Value tag)) :=
  -- The shapes of both lists and the blocks to send are settled before anything is sent.
  if shape : sendCounts.length = size then
    if recvCounts.length = size then do
      let _ ← Failure.ofDefect (Count.totals 0 sendCounts)
      match cut : cutBlocks items sendCounts with
      | .error broken => .fail (.defect broken)
      | .ok blocks => do
        let received ← Program.issue (.blocks tag)
          ⟨blocks.toArray, by simpa [cutBlocks_length cut] using shape⟩
        fillBuffer tag room recvCounts received.toList
    else .fail (.comm (.listLength size recvCounts.length))
  else .fail (.comm (.listLength size sendCounts.length))

/-- The values of all ranks, in rank order. -/
def allGather (tag : Payloads.Tag) (value : Payloads.Value tag) :
    Program size Failure (Vector (Payloads.Value tag) size) :=
  -- Every rank is sent the same value.
  Program.issue (.gather tag) (Vector.replicate size value)

/-- Combines the values of all ranks, starting from the value of the first one. -/
def fold (tag : Payloads.Tag)
    (combine : Payloads.Value tag → Payloads.Value tag → Except Defect (Payloads.Value tag))
    (value : Payloads.Value tag) : Program size Failure (Payloads.Value tag) := do
  -- Values are combined in rank order on every rank alike.
  let values ← allGather tag value
  match values.toList with
  | [] => return value
  | first :: others => Failure.ofDefect (others.foldlM combine first)

end Generic

/-- The ways in which the values of all ranks are combined. -/
inductive Reduction where
  /-- The sum, refused when it does not fit a word. -/
  | sum
  /-- The greatest value. -/
  | max
  /-- The least value. -/
  | min
  /-- The first value less all others, wrapping around. -/
  | difference
  deriving DecidableEq

/-- Combines what has been combined so far with the next value. -/
def Reduction.combine (reduction : Reduction) (folded value : UInt64) : Except Defect UInt64 :=
  -- Only a sum can fail.
  match reduction with
  | .sum => Word.add folded value
  | .max => .ok (if folded < value then value else folded)
  | .min => .ok (if value < folded then value else folded)
  | .difference => .ok (folded - value)

/-- Combines the words of all ranks. -/
def allReduce (reduction : Reduction) (value : UInt64) : Program size Failure UInt64 :=
  -- Every rank gathers the words of all others.
  fold Wire.word reduction.combine value

/-- The sum of the values of all lower ranks, and the sum of all values. -/
def exclusiveScan (self : Member size) (value : UInt64) :
    Program size Failure (UInt64 × UInt64) := do
  -- The lower ranks are summed first.
  let values ← allGather Wire.word value
  let before ← Failure.ofDefect (Word.sum (values.toList.take self.rank))
  let total ← Failure.ofDefect (Word.sum values.toList)
  return (before, total)

/-- Waits for all ranks. -/
def barrier : Program size Failure Unit := do
  -- The values that are gathered do not matter.
  let _ ← allGather Wire.byte (0 : UInt8)
  return ()

end Communicator

end DistGraph
