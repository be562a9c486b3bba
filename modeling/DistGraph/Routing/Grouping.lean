import DistGraph.Error

/-! Items grouped by the rank they go to, in one pass over counters. -/

namespace DistGraph

/-- Items of rank zero, then items of rank one and so on, with their numbers. -/
structure Grouped (α : Type) where
  /-- All items, rank by rank. -/
  items : List α
  /-- The number of items of every rank. -/
  counts : List Int32
  deriving DecidableEq

namespace Grouping

variable {α : Type}

/-- Reads a counter and raises it by one. -/
def bump (counters : Array Nat) (index : Nat) : Except Defect (Nat × Array Nat) :=
  -- A rank without a counter does not exist.
  if inside : index < counters.size then
    .ok (counters[index], counters.set index (counters[index] + 1))
  else .error .outOfRange

/-- How many items go to each of `size` ranks. -/
def tally (size : Nat) (destinations : List Nat) : Except Defect (Array Nat) :=
  -- Every item raises the counter of its rank.
  destinations.foldlM (fun counters destination => do
    let (_, raised) ← bump counters destination
    return raised) (Array.replicate size 0)

/-- The slots at which the groups start when each follows the one before it. -/
def firstSlots (start : Nat) : List Nat → List Nat
  -- A group ends where the next one starts.
  | [] => []
  | count :: counts => start :: firstSlots (start + count) counts

/-- The slots that items take when each takes the next free one of its rank. -/
def takeSlots (free : Array Nat) : (destinations : List Nat) → Except Defect (List Nat)
  -- Items of one rank take its slots in the order in which they come.
  | [] => .ok []
  | destination :: destinations => do
    let (slot, raised) ← bump free destination
    return slot :: (← takeSlots raised destinations)

/-- Puts items into their slots. -/
def place (buffer : Array α) : (items : List (α × Nat)) → Except Defect (Array α)
  -- Slots are made beforehand, and none is added.
  | [] => .ok buffer
  | (item, slot) :: items =>
    if inside : slot < buffer.size then place (buffer.set slot item) items
    else .error .outOfRange

/-- A number of items as a count, refused when it needs more than 31 bits. -/
def asCount (number : Nat) : Except OperationError Int32 :=
  -- Too many items are reported like too much memory.
  if number ≤ Int32.maxValue.toNatClampNeg then .ok (Int32.ofNat number)
  else .error (.outOfMemory number Int32.maxValue.toNatClampNeg)

/-- Groups items by destination, keeping the order of items that go to one rank. -/
def group [Inhabited α] (size : Nat) (destination : α → Except Failure Nat) (items : List α) :
    Except Failure (Grouped α) := do
  -- All destinations are known before the first item is counted.
  let destinations ← items.mapM destination
  let numbers ← Failure.ofDefect (tally size destinations)
  let free := (firstSlots 0 numbers.toList).toArray
  let slots ← Failure.ofDefect (takeSlots free destinations)
  let buffer := Array.replicate items.length default
  let grouped ← Failure.ofDefect (place buffer (items.zip slots))
  let counts ← (numbers.toList.mapM asCount).mapError .graph
  return ⟨grouped.toList, counts⟩

end Grouping

end DistGraph
