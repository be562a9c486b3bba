/-! Search by halving over an indexed order. -/

namespace DistGraph.Search

/-- The index at which halving a window of candidates ends. -/
def narrow (order : Nat → Ordering) (base size : Nat) : Nat :=
  -- The upper half is kept unless its first entry lies beyond what is sought.
  if size ≤ 1 then base else
    let half := size / 2
    narrow order (if order (base + half) = .gt then base else base + half) (size - half)
termination_by size

/-- An index among the first `size` whose entry is equal to what is sought. -/
def find? (size : Nat) (order : Nat → Ordering) : Option Nat :=
  -- One entry is left after halving; only that one is compared for equality.
  if size = 0 then none else
    let last := narrow order 0 size
    if order last = .eq then some last else none

/-- How many of the first `size` entries satisfy a test that never turns true again. -/
def partitionPoint (size : Nat) (test : Nat → Bool) : Nat :=
  -- Entries that pass the test lie before the point, all others beyond it.
  if size = 0 then 0 else
    let last := narrow (fun i => if test i then .lt else .gt) 0 size
    if test last then last + 1 else last

/-- Halving never leaves the window it started with. -/
theorem narrow_lt (order : Nat → Ordering) (base size : Nat) (occupied : 0 < size) :
    narrow order base size < base + size := by
  -- Either half of a window of two or more entries ends where the window ended or before.
  induction size using Nat.strongRecOn generalizing base with
  | ind size ih =>
    rw [narrow]
    split
    · omega
    · rename_i large
      have lower := ih (size - size / 2) (by omega) base (by omega)
      have upper := ih (size - size / 2) (by omega) (base + size / 2) (by omega)
      dsimp only
      split <;> omega

/-- A window holds no more passing entries than entries. -/
theorem partitionPoint_le (size : Nat) (test : Nat → Bool) : partitionPoint size test ≤ size := by
  -- The last candidate is one of the entries.
  unfold partitionPoint
  split
  · omega
  · have inside := narrow_lt (fun i => if test i then .lt else .gt) 0 size (by omega)
    dsimp only
    split <;> omega

/-- The last entry keeps the point below the size when it fails the test. -/
theorem partitionPoint_lt {size : Nat} {test : Nat → Bool} (fails : test size = false) :
    partitionPoint (size + 1) test ≤ size := by
  -- If halving ends at the last entry, that entry fails and is not counted.
  unfold partitionPoint
  have inside := narrow_lt (fun i => if test i then .lt else .gt) 0 (size + 1) (by omega)
  rw [if_neg (by omega)]
  dsimp only
  split
  · rename_i passes
    generalize narrow _ _ _ = last at inside passes
    have other : last ≠ size := by rintro rfl; simp [fails] at passes
    omega
  · omega

end DistGraph.Search
