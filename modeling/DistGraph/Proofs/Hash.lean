import DistGraph.Hash
import Mathlib.Logic.Function.Basic

/-! Mixing the bits of a key can be undone, so that every word is mixed from exactly one key. -/

namespace DistGraph

/-- A word with its upper bits folded onto the lower ones. -/
def foldUpper (bits word : UInt64) : UInt64 :=
  -- Adding without carry keeps the upper bits in place, so nothing of the word is lost.
  word ^^^ word >>> bits

/-- A word with its upper bits folded back, for folds that move them by a third of the word or more. -/
def unfoldUpper (bits word : UInt64) : UInt64 :=
  -- What was folded once was moved along with the word, so the second move takes it off again.
  word ^^^ (word >>> bits ^^^ word >>> bits >>> bits)

/-- The key that is mixed to a word. -/
def unmixBits (word : UInt64) : UInt64 :=
  -- The last step of the mixing is undone first, and a product by the inverse of its odd factor.
  let second := unfoldUpper 31 word
  let refolded := second * 0x319642b2d24d8ec3
  let first := unfoldUpper 27 refolded
  let folded := first * 0x96de1b173f119089
  unfoldUpper 30 folded

/-- What is added to a word twice, without carry, leaves the word as it was. -/
@[simp] theorem xor_xor_same (word added : UInt64) : word ^^^ added ^^^ added = word := by
  rw [UInt64.xor_assoc, UInt64.xor_self, UInt64.xor_zero]

section Fold

variable {bits : UInt64} (word : UInt64)

/-- Nothing is left of a word that is moved three times by a third of its bits or more. -/
theorem shiftRight_thrice (few : bits < 64) (third : 64 ≤ 3 * bits.toNat) :
    word >>> bits >>> bits >>> bits = 0 := by
  -- Moves by fewer than all bits add up, and together these pass the end of the word.
  have small : bits.toNat < 64 := UInt64.lt_iff_toNat_lt.mp few
  have moved : (word >>> bits >>> bits >>> bits).toNat = word.toNat >>> (3 * bits.toNat) := by
    simp only [UInt64.toNat_shiftRight, Nat.mod_eq_of_lt small, ← Nat.shiftRight_add]
    congr 1
    omega
  have covered : word.toNat < 2 ^ (3 * bits.toNat) :=
    Nat.lt_of_lt_of_le word.toNat_lt (Nat.pow_le_pow_right (by decide) third)
  have gone : word.toNat >>> (3 * bits.toNat) = 0 := by
    rw [Nat.shiftRight_eq_div_pow, Nat.div_eq_of_lt covered]
  exact UInt64.toNat_inj.mp (moved.trans gone)

/-- What was unfolded is folded to the word it was unfolded from. -/
@[simp] theorem foldUpper_unfoldUpper (few : bits < 64) (third : 64 ≤ 3 * bits.toNat) :
    foldUpper bits (unfoldUpper bits word) = word := by
  unfold foldUpper unfoldUpper
  -- Moving the unfolded word gives exactly what was added to it.
  have moved : (word ^^^ (word >>> bits ^^^ word >>> bits >>> bits)) >>> bits =
      word >>> bits ^^^ word >>> bits >>> bits := by
    rw [UInt64.shiftRight_xor, UInt64.shiftRight_xor, shiftRight_thrice word few third,
      UInt64.xor_zero]
  rw [moved, xor_xor_same]

/-- What was folded is unfolded to the word it was folded from. -/
@[simp] theorem unfoldUpper_foldUpper (few : bits < 64) (third : 64 ≤ 3 * bits.toNat) :
    unfoldUpper bits (foldUpper bits word) = word := by
  unfold foldUpper unfoldUpper
  have once : (word ^^^ word >>> bits) >>> bits = word >>> bits ^^^ word >>> bits >>> bits :=
    UInt64.shiftRight_xor
  have twice : (word ^^^ word >>> bits) >>> bits >>> bits = word >>> bits >>> bits := by
    rw [once, UInt64.shiftRight_xor, shiftRight_thrice word few third, UInt64.xor_zero]
  -- The second move takes off what the first one has brought along, and the first one what was folded.
  rw [twice, once, xor_xor_same, xor_xor_same]

end Fold

/-- A word multiplied by a factor and then by its inverse is the word. -/
theorem mul_mul_inverse (word : UInt64) {factor inverse : UInt64} (unit : factor * inverse = 1) :
    word * factor * inverse = word := by
  rw [UInt64.mul_assoc, unit, UInt64.mul_one]

/-- Mixing folds the upper bits of a key three times and multiplies in between. -/
theorem mixBits_eq (key : UInt64) :
    mixBits key =
      foldUpper 31 (foldUpper 27 (foldUpper 30 key * 0xbf58476d1ce4e5b9) * 0x94d049bb133111eb) :=
  rfl

/-- A key is found again from the word it is mixed to. -/
@[simp] theorem unmixBits_mixBits : Function.LeftInverse unmixBits mixBits := by
  -- Each rewriting undoes the outermost step that is left of the mixing.
  intro key
  rw [mixBits_eq, unmixBits, unfoldUpper_foldUpper _ (by decide) (by decide),
    mul_mul_inverse _ (by decide), unfoldUpper_foldUpper _ (by decide) (by decide),
    mul_mul_inverse _ (by decide), unfoldUpper_foldUpper _ (by decide) (by decide)]

/-- A word is what the key that was found for it is mixed to. -/
@[simp] theorem mixBits_unmixBits : Function.RightInverse unmixBits mixBits := by
  -- The mixing takes the steps of the search back in the opposite order.
  intro word
  rw [mixBits_eq, unmixBits, foldUpper_unfoldUpper _ (by decide) (by decide),
    mul_mul_inverse _ (by decide), foldUpper_unfoldUpper _ (by decide) (by decide),
    mul_mul_inverse _ (by decide), foldUpper_unfoldUpper _ (by decide) (by decide)]

/-- Every word is mixed from exactly one key. -/
theorem mixBits_bijective : Function.Bijective mixBits :=
  ⟨unmixBits_mixBits.injective, mixBits_unmixBits.surjective⟩

end DistGraph
