import DistGraph.Error
import DistGraph.Word
import Mathlib.Algebra.GroupWithZero.Nat

/-! Running sums of words are the sums of their numbers. -/

namespace DistGraph

/-- The greater of two words is one of them, and no less than either. -/
instance lawfulOrderMaxWord : Std.LawfulOrderMax UInt64 where
  max_eq_or left right := by
    show (if left ≤ right then right else left) = left ∨ (if left ≤ right then right else left) = right
    split
    · exact .inr rfl
    · exact .inl rfl
  max_le_iff left right bound := by
    show (if left ≤ right then right else left) ≤ bound ↔ left ≤ bound ∧ right ≤ bound
    simp only [UInt64.le_iff_toNat_le]
    split <;> omega

namespace Word

/-- Words are added up to the word of their sum, if there is one. -/
theorem foldlM_add_eq_ok_iff {words : List UInt64} {start total : UInt64} :
    words.foldlM add start = .ok total ↔
      start.toNat + (words.map UInt64.toNat).sum = total.toNat := by
  induction words generalizing start with
  | nil =>
    simp only [List.foldlM_nil, List.map_nil, List.sum_nil, Nat.add_zero, UInt64.toNat_inj]
    exact ⟨fun same => Except.ok.inj same, fun same => congrArg _ same⟩
  | cons word words ih =>
    rw [List.foldlM_cons, List.map_cons, List.sum_cons]
    cases next : add start word with
    | error defect =>
      -- The sum was already too great with this word.
      have refused : ¬ start.toNat + word.toNat < UInt64.size := by
        intro fits
        have made : add start word = .ok (UInt64.ofNat (start.toNat + word.toNat)) := by
          rw [add_eq_ok_iff, UInt64.toNat_ofNat_of_lt' fits]
        rw [made] at next
        cases next
      have bound := total.toNat_lt_size
      simp only [error_bind, reduceCtorEq, false_iff]
      omega
    | ok sum =>
      have step := add_eq_ok_iff.mp next
      apply ih.trans
      omega

/-- Words have a sum exactly if their numbers have one that is a word. -/
@[simp] theorem sum_eq_ok_iff {words : List UInt64} {total : UInt64} :
    sum words = .ok total ↔ (words.map UInt64.toNat).sum = total.toNat := by
  unfold sum
  rw [foldlM_add_eq_ok_iff]
  simp

/-- A sum is refused only because it does not fit a word. -/
theorem eq_overflow_of_sum {words : List UInt64} {defect : Defect} (refused : sum words = .error defect) :
    defect = .overflow := by
  unfold sum at refused
  -- The induction is on the words that are left, with whatever has been added so far.
  generalize (0 : UInt64) = start at refused
  induction words generalizing start with
  | nil => cases refused
  | cons word words ih =>
    rw [List.foldlM_cons] at refused
    cases next : add start word with
    | ok total =>
      rw [next] at refused
      exact ih total refused
    | error reason =>
      rw [next] at refused
      cases refused
      unfold add exact at next
      split at next
      · cases next
      · exact (Except.error.inj next).symm

/-- A running sum passes through the sums of the first words. -/
theorem getElem_totals {counts ends : List UInt64} {start : UInt64}
    (summed : totals start counts = .ok ends) {index : Nat} (inside : index < ends.length) :
    ends[index].toNat = start.toNat + ((counts.take (index + 1)).map UInt64.toNat).sum := by
  induction counts generalizing start ends index with
  | nil =>
    cases summed
    simp at inside
  | cons count counts ih =>
    -- Each total is the one before it with one more count, which the induction starts from.
    simp only [totals, bind_eq_ok_iff] at summed
    obtain ⟨next, added, rest, summedRest, made⟩ := summed
    cases made
    have step := add_eq_ok_iff.mp added
    cases index with
    | zero => simp [step]
    | succ index =>
      rw [List.length_cons, Nat.add_lt_add_iff_right] at inside
      rw [List.getElem_cons_succ, ih summedRest inside, List.take_succ_cons, List.map_cons,
        List.sum_cons]
      omega

/-- A running sum succeeds if the whole sum fits a word. -/
theorem exists_totals {counts : List UInt64} {start : UInt64}
    (fits : start.toNat + (counts.map UInt64.toNat).sum < UInt64.size) :
    ∃ ends, totals start counts = .ok ends := by
  induction counts generalizing start with
  | nil => exact ⟨[], rfl⟩
  | cons count counts ih =>
    -- No total is greater than the whole sum, so that none overflows.
    rw [List.map_cons, List.sum_cons] at fits
    have step : add start count = .ok (UInt64.ofNat (start.toNat + count.toNat)) := by
      rw [add_eq_ok_iff, UInt64.toNat_ofNat_of_lt' (by omega)]
    have next : (UInt64.ofNat (start.toNat + count.toNat)).toNat = start.toNat + count.toNat :=
      UInt64.toNat_ofNat_of_lt' (by omega)
    obtain ⟨rest, summed⟩ := @ih (UInt64.ofNat (start.toNat + count.toNat)) (by omega)
    exact ⟨_, bind_eq_ok_iff.mpr ⟨_, step, bind_eq_ok_iff.mpr ⟨rest, summed, rfl⟩⟩⟩

end Word

end DistGraph
