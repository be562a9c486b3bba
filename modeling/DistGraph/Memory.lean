import DistGraph.Error

/-! The memory a single buffer may take. -/

namespace DistGraph.Memory

/-- The greatest number of bytes that can be asked for. -/
def addressable : Nat := UInt64.size - 1

/-- The greatest number of bytes a buffer can have, whatever its limit. -/
def largestBuffer : Nat := UInt64.size / 2 - 1

/-- Grants a buffer of `length` items of `bytes` bytes each, within a limit if there is one. -/
def reserve (limit : Option UInt64) (bytes length : Nat) : Except OperationError Unit :=
  -- A request beyond what can be asked for counts as the greatest one.
  let requested := min (length * bytes) addressable
  let available := (limit.map UInt64.toNat).getD addressable
  if requested ≤ available ∧ requested ≤ largestBuffer then .ok ()
  else .error (.outOfMemory requested available)

/-- A buffer is granted exactly when its bytes are within both the limit and what a buffer can have. -/
theorem reserve_eq_ok_iff {limit : Option UInt64} {bytes length : Nat} :
    reserve limit bytes length = .ok () ↔
      length * bytes ≤ largestBuffer ∧ ∀ most, limit = some most → length * bytes ≤ most.toNat := by
  -- The greatest buffer lies below the greatest request, so cutting the request off changes nothing.
  have below : largestBuffer < addressable := by decide
  cases limit with
  | none =>
    simp only [reserve, Option.map_none, Option.getD_none, ite_eq_ok_iff, reduceCtorEq, false_implies,
      implies_true, and_true]
    omega
  | some most =>
    have word := most.toNat_lt_size
    -- A limit is a word, and cuts the request off below what can be addressed.
    have bound : most.toNat ≤ addressable := by
      unfold addressable; have : UInt64.size = 2 ^ 64 := rfl; omega
    simp only [reserve, Option.map_some, Option.getD_some, ite_eq_ok_iff, Option.some.injEq, forall_eq']
    omega

end DistGraph.Memory
