/-! Broken rules of a caller, from which the rank that meets one does not recover. -/

namespace DistGraph

/-- A request that breaks a rule its caller has to keep. -/
inductive Defect where
  /-- A rank, a slot or a span lies outside of what it indexes. -/
  | outOfRange
  /-- A sum or a product does not fit its word. -/
  | overflow
  /-- Work is to be divided over no ranks. -/
  | divisionByZero
  /-- A renumber map does not hold one label per vertex of its range. -/
  | labelCount
  /-- A partition is asked for over no ranks. -/
  | emptyPartition
  /-- A communicator is asked for over no ranks. -/
  | emptyCommunicator
  deriving DecidableEq

/-- The wording of a defect, for the ones that have one. -/
def Defect.message? : Defect → Option String
  -- Only the two missing groups of ranks are named in words.
  | .emptyPartition => some "a partition needs at least one rank"
  | .emptyCommunicator => some "a communicator needs at least one rank"
  | .outOfRange | .overflow | .divisionByZero | .labelCount => none

end DistGraph
