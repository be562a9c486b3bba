/-! Mixing of 64-bit keys. -/

namespace DistGraph

/-- Mixes the bits of a key so that close keys scatter. -/
def mixBits (key : UInt64) : UInt64 :=
  -- Two rounds of fold-and-multiply, each undone by the inverse of its odd factor, and a last fold.
  let folded := key ^^^ (key >>> 30)
  let first := folded * 0xbf58476d1ce4e5b9
  let refolded := first ^^^ (first >>> 27)
  let second := refolded * 0x94d049bb133111eb
  second ^^^ (second >>> 31)

end DistGraph
