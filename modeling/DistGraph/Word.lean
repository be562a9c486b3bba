import DistGraph.Defect
import DistGraph.Outcome

/-! Arithmetic on 64-bit words that refuses a result it cannot hold. -/

namespace DistGraph.Word

/-- The word of a number, refused when the number needs more than 64 bits. -/
def exact (n : Nat) : Except Defect UInt64 :=
  -- Nothing wraps: a number without a word of its own is a defect of the caller.
  if bounded : n < UInt64.size then .ok (UInt64.ofNatLT n bounded) else .error .overflow

/-- The sum of two words, refused when it does not fit. -/
def add (a b : UInt64) : Except Defect UInt64 :=
  -- The sum is taken exactly and only then put back into a word.
  exact (a.toNat + b.toNat)

/-- The totals that a running sum passes through, from its first addition on. -/
def totals (start : UInt64) : List UInt64 → Except Defect (List UInt64)
  -- Every total is checked, so the first one that does not fit ends the sum.
  | [] => .ok []
  | count :: counts => do
    let next ← add start count
    return next :: (← totals next counts)

/-- The sum of a list of words, refused when any total on the way does not fit. -/
def sum (words : List UInt64) : Except Defect UInt64 :=
  -- Words are added in list order, starting from nothing.
  words.foldlM add 0

/-- A word is made of exactly the numbers below 2 ^ 64, and keeps their value. -/
theorem exact_eq_ok_iff {n : Nat} {word : UInt64} : exact n = .ok word ↔ n = word.toNat := by
  -- Both directions read the bound that the word itself carries.
  unfold exact
  constructor
  · intro made
    split at made
    · cases made; simp
    · simp at made
  · rintro rfl
    simp [UInt64.toNat_lt_size]

/-- A sum that succeeds is the sum of the numbers. -/
theorem add_eq_ok_iff {a b word : UInt64} : add a b = .ok word ↔ a.toNat + b.toNat = word.toNat :=
  -- The exact sum fits its word or the addition is refused.
  exact_eq_ok_iff

/-- The totals of a running sum are that of its first addition and those that go on from there. -/
theorem totals_cons_eq_ok_iff {start count : UInt64} {counts ends : List UInt64} :
    totals start (count :: counts) = .ok ends ↔
      ∃ next rest, add start count = .ok next ∧ totals next counts = .ok rest ∧ next :: rest = ends := by
  simp [totals, bind_eq_ok_iff]

/-- A running sum passes through one total per count. -/
theorem totals_length {counts ends : List UInt64} {start : UInt64}
    (summed : totals start counts = .ok ends) : ends.length = counts.length := by
  -- Each count adds one total in front of those that follow it.
  induction counts generalizing start ends with
  | nil => simp only [totals, Except.ok.injEq] at summed; simp [← summed]
  | cons count counts ih =>
    obtain ⟨word, tail, -, rest, rfl⟩ := totals_cons_eq_ok_iff.mp summed
    simp [ih rest]

/-- A running sum never decreases, and never falls below its start. -/
theorem totals_ordered {counts ends : List UInt64} {start : UInt64}
    (summed : totals start counts = .ok ends) : (start :: ends).Pairwise (· ≤ ·) := by
  -- Every total is its predecessor plus a count, so order carries over from the shorter sum.
  induction counts generalizing start ends with
  | nil => simp only [totals, Except.ok.injEq] at summed; simp [← summed]
  | cons count counts ih =>
    obtain ⟨word, tail, next, rest, rfl⟩ := totals_cons_eq_ok_iff.mp summed
    have later := ih rest
    have grown := add_eq_ok_iff.mp next
    have below : start ≤ word := by rw [UInt64.le_iff_toNat_le]; omega
    refine List.pairwise_cons.mpr ⟨?_, later⟩
    intro total member
    rcases List.mem_cons.mp member with rfl | deeper
    · exact below
    · exact UInt64.le_trans below ((List.pairwise_cons.mp later).1 total deeper)

end DistGraph.Word
