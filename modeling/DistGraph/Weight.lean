/-! Edge weights, kept as the bits of a binary floating-point number. -/

namespace DistGraph

/-- The weight of an edge. -/
structure Weight where
  /-- The bits of the number in the 64-bit binary format. -/
  bits : UInt64
  deriving DecidableEq, Inhabited

namespace Weight

/-- The weight with no bit set, which is positive zero. -/
def zero : Weight := ⟨0⟩

/-- The number a weight stands for. -/
def toFloat (weight : Weight) : Float :=
  -- The bits are the number, so nothing is rounded.
  Float.ofBits weight.bits

/-- The weight of a number. -/
def ofFloat (number : Float) : Weight :=
  -- The number is its bits, so nothing is rounded.
  ⟨number.toBits⟩

/-- Whether a weight is a number other than an infinity. -/
def isFinite (weight : Weight) : Bool :=
  -- Infinities and everything that is not a number have all eleven exponent bits set.
  (weight.bits >>> 52) &&& 0x7ff != 0x7ff

/-- Whether a weight is not a number. -/
def isNaN (weight : Weight) : Bool :=
  -- Below a full exponent, any fraction bit tells such a weight from an infinity.
  !weight.isFinite && weight.bits &&& 0xfffffffffffff != 0

/-- Whether two weights are equal as numbers. -/
def equal (left right : Weight) : Bool :=
  -- The two zeros are equal, and what is not a number equals nothing.
  left.toFloat == right.toFloat

/-- The sum of two weights. -/
def add (left right : Weight) : Weight :=
  -- The sum is rounded once to the nearest number of the format.
  ofFloat (left.toFloat + right.toFloat)

/-- The lesser of two weights. -/
def min (left right : Weight) : Weight :=
  -- What is not a number gives way to the other weight.
  if left.isNaN then right
  else if right.isNaN then left
  else if right.toFloat < left.toFloat then right else left

/-- The greater of two weights. -/
def max (left right : Weight) : Weight :=
  -- What is not a number gives way to the other weight.
  if left.isNaN then right
  else if right.isNaN then left
  else if left.toFloat < right.toFloat then right else left

end Weight

end DistGraph
