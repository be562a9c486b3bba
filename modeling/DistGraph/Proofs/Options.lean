import DistGraph.Options
import DistGraph.Proofs.Hash

/-! What the digest of the options tells apart, and the one thing that it does not. -/

namespace DistGraph.Options

/-- The digest that follows on another one when a word is folded in. -/
def absorb (digest word : UInt64) : UInt64 :=
  mixBits (digest ^^^ word)

/-- It makes no difference which of two words is folded into the other. -/
theorem absorb_comm (digest word : UInt64) : absorb digest word = absorb word digest := by
  unfold absorb
  rw [UInt64.xor_comm]

/-- Every digest follows on a given one for exactly one word. -/
theorem absorb_bijective (digest : UInt64) : Function.Bijective (absorb digest) := by
  -- Mixing in a word twice undoes it, and the bits are mixed bijectively after that.
  have undone : Function.Involutive (digest ^^^ ·) := by
    intro word
    show digest ^^^ (digest ^^^ word) = word
    rw [UInt64.xor_comm, UInt64.xor_comm digest word, xor_xor_same]
  exact mixBits_bijective.comp undone.bijective

/-- Every digest follows on exactly one other, whatever words are folded in. -/
theorem foldl_absorb_bijective (words : List UInt64) :
    Function.Bijective fun start => words.foldl absorb start := by
  -- Each word permutes the digests, so all of them together do.
  induction words with
  | nil => exact Function.bijective_id
  | cons word words ih =>
    have turned : (fun start => absorb start word) = absorb word :=
      funext fun start => absorb_comm start word
    have step : Function.Bijective fun start => absorb start word :=
      turned ▸ absorb_bijective word
    exact ih.comp step

/-- With the words around it fixed, one word of a sequence makes every digest, each in one way. -/
theorem digest_bijective (before after : List UInt64) :
    Function.Bijective fun word => digest (before ++ word :: after) := by
  -- The words before make a digest that the word is absorbed into, and those after follow on it.
  have folded : ∀ word, digest (before ++ word :: after) =
      after.foldl absorb (absorb (digest before) word) := by
    intro word
    exact List.foldl_append
  simp only [folded]
  exact (foldl_absorb_bijective after).comp (absorb_bijective (digest before))

/-- Sequences of words that differ in one place have different digests. -/
theorem digest_ne (before after : List UInt64) {left right : UInt64} (other : left ≠ right) :
    digest (before ++ left :: after) ≠ digest (before ++ right :: after) :=
  (digest_bijective before after).injective.ne other

/-- With the other words of a sequence fixed, the one in a given place makes every digest, each in one
way. -/
theorem digest_set_bijective {count : Nat} (words : Vector UInt64 count) {place : Nat}
    (inside : place < count) :
    Function.Bijective fun word => digest (words.set place word inside).toList := by
  -- The other words stand in front of the place and behind it.
  have around : ∀ word, (words.set place word inside).toList =
      words.toList.take place ++ word :: words.toList.drop (place + 1) := by
    intro word
    rw [Vector.toList_set, List.set_eq_take_append_cons_drop, if_pos (by simpa using inside)]
  simp only [around]
  exact digest_bijective _ _

/-- A sequence of words that differs from another one in a single place at most is made from it by
setting that place. -/
theorem set_eq_of_elsewhere {count : Nat} {left right : Vector UInt64 count} {place : Nat}
    (inside : place < count)
    (elsewhere : ∀ index (within : index < count), left[index] ≠ right[index] → index = place) :
    left.set place right[place] inside = right := by
  apply Vector.ext
  intro index within
  rw [Vector.getElem_set]
  -- In the place itself the word is set, and elsewhere the sequences agree.
  split
  case isTrue same => subst same; rfl
  case isFalse apart =>
    by_contra other
    exact apart (elsewhere index within other).symm

/-- Mixing is a bijection of the words; and the fingerprint of options is the digest of nine words, which
changes whenever exactly one of the words does. -/
theorem digest_separates :
    Function.Bijective mixBits ∧
      (∀ options : Options, ∃ words : Vector UInt64 9,
        words.toList = options.words ∧ options.fingerprint = digest words.toList) ∧
      ∀ left right : Vector UInt64 9, (∃! place : Fin 9, left[place] ≠ right[place]) →
        digest left.toList ≠ digest right.toList := by
  refine ⟨mixBits_bijective, fun options => ⟨⟨⟨options.words⟩, rfl⟩, rfl, rfl⟩, ?_⟩
  rintro left right ⟨place, other, elsewhere⟩ same
  have changed : left.set place right[place] place.isLt = right :=
    set_eq_of_elsewhere place.isLt fun index within differ =>
      congrArg Fin.val (elsewhere ⟨index, within⟩ differ)
  -- Both sequences put a word into the same place of the left one, where no two words have one digest.
  have alike : digest (left.set place left[place] place.isLt).toList =
      digest (left.set place right[place] place.isLt).toList := by
    calc digest (left.set place left[place] place.isLt).toList
        = digest left.toList := by rw [Fin.getElem_fin, Vector.set_getElem_self]
      _ = digest right.toList := same
      _ = digest (left.set place right[place] place.isLt).toList := by rw [changed]
  exact other ((digest_set_bijective left place.isLt).injective alike)

/-- The words of the default options and those for ten vertices have different digests. -/
theorem digest_separates_sample :
    let default : Vector UInt64 9 :=
      #v[0, 0, 1, 0, 0, 0, 0, 0xffffffffffffffff, 0xffffffffffffffff]
    let tenVertices : Vector UInt64 9 := #v[0, 0, 1, 0, 0, 0, 0, 10, 0xffffffffffffffff]
    (∃! place : Fin 9, default[place] ≠ tenVertices[place]) ∧
      digest default.toList ≠ digest tenVertices.toList := by
  intro default tenVertices
  -- Only the words of the number of vertices differ.
  have once : ∃! place : Fin 9, default[place] ≠ tenVertices[place] :=
    ⟨7, by decide, by decide⟩
  exact ⟨once, digest_separates.2.2 default tenVertices once⟩

/-- Whether two choices of options differ in a single one. -/
inductive OneApart (options : Options) : Options → Prop where
  /-- They differ in whether the reverses of edges are added. -/
  | addReverses {value : Bool} (other : value ≠ options.addReverses) :
      OneApart options { options with addReverses := value }
  /-- They differ in how parallel edges are combined. -/
  | mergePolicy {value : MergePolicy} (other : value ≠ options.mergePolicy) :
      OneApart options { options with mergePolicy := value }
  /-- They differ in whether vertices get new ids. -/
  | renumber {value : Bool} (other : value ≠ options.renumber) :
      OneApart options { options with renumber := value }
  /-- They differ in whether ranks run the checks that need all of them. -/
  | check {value : Bool} (other : value ≠ options.check) :
      OneApart options { options with check := value }
  /-- They differ in whether self-loops are dropped. -/
  | dropSelfLoops {value : Bool} (other : value ≠ options.dropSelfLoops) :
      OneApart options { options with dropSelfLoops := value }
  /-- They differ in the order of new ids. -/
  | order {value : IdOrder} (other : value ≠ options.order) :
      OneApart options { options with order := value }
  /-- They differ in the endpoint by which adjacency is grouped. -/
  | transposed {value : Bool} (other : value ≠ options.transposed) :
      OneApart options { options with transposed := value }
  /-- They differ in the number of vertices. -/
  | vertexCount {value : Option UInt64} (other : value ≠ options.vertexCount) :
      OneApart options { options with vertexCount := value }
  /-- They differ in the budget of a segment. -/
  | segmentBudget {value : Option UInt64} (other : value ≠ options.segmentBudget) :
      OneApart options { options with segmentBudget := value }

/-- Whether one of two numbers is not given and the other one is the greatest word. -/
inductive Confused : Option UInt64 → Option UInt64 → Prop where
  /-- The first one is not given. -/
  | absent : Confused none (some 0xffffffffffffffff)
  /-- The second one is not given. -/
  | given : Confused (some 0xffffffffffffffff) none

/-- A number that is not given is confused with the greatest one only. -/
theorem limitWord_ne {left right : Option UInt64} (other : left ≠ right)
    (told : ¬ Confused left right) : limitWord left ≠ limitWord right := by
  cases left with
  | none =>
    cases right with
    | none => exact absurd rfl other
    | some limit =>
      -- The words agree only if the limit is the greatest one.
      rintro rfl
      exact told .absent
  | some limit =>
    cases right with
    | none =>
      rintro rfl
      exact told .given
    | some bound =>
      rintro rfl
      exact other rfl

/-- Switches are told apart by their words. -/
theorem switchWord_injective : Function.Injective switchWord := by
  intro left right
  cases left <;> cases right <;> decide

/-- Policies are told apart by their codes. -/
theorem policyCode_injective : Function.Injective MergePolicy.code := by
  intro left right
  cases left <;> cases right <;> decide

/-- Orders are told apart by their codes. -/
theorem orderCode_injective : Function.Injective IdOrder.code := by
  intro left right
  cases left <;> cases right <;> decide

/-- Options that differ in a single one have different digests, numbers that are not given apart. -/
theorem OneApart.fingerprint_ne {left right : Options} (apart : left.OneApart right)
    (count : ¬ Confused left.vertexCount right.vertexCount)
    (budget : ¬ Confused left.segmentBudget right.segmentBudget) :
    left.fingerprint ≠ right.fingerprint := by
  -- All words in front of the one that differs are the same, and so are those behind.
  cases apart with
  | addReverses other => exact digest_ne [] _ (switchWord_injective.ne other.symm)
  | mergePolicy other => exact digest_ne [_] _ (policyCode_injective.ne other.symm)
  | renumber other => exact digest_ne [_, _] _ (switchWord_injective.ne other.symm)
  | check other => exact digest_ne [_, _, _] _ (switchWord_injective.ne other.symm)
  | dropSelfLoops other => exact digest_ne [_, _, _, _] _ (switchWord_injective.ne other.symm)
  | order other => exact digest_ne [_, _, _, _, _] _ (orderCode_injective.ne other.symm)
  | transposed other => exact digest_ne [_, _, _, _, _, _] _ (switchWord_injective.ne other.symm)
  | vertexCount other => exact digest_ne [_, _, _, _, _, _, _] _ (limitWord_ne other.symm count)
  | segmentBudget other => exact digest_ne [_, _, _, _, _, _, _, _] _ (limitWord_ne other.symm budget)

/-- Options that differ in a single one agree on whether ranks check together, unless they differ in
nothing else. -/
theorem OneApart.check_eq_or {left right : Options} (apart : left.OneApart right) :
    right.check = left.check ∨ right = { left with check := !left.check } := by
  -- Only one of the cases is about the check itself.
  cases apart with
  | @check value other =>
    obtain rfl : value = !left.check := Bool.eq_not_of_ne other
    exact .inr rfl
  | addReverses | mergePolicy | renumber | dropSelfLoops | order | transposed | vertexCount
  | segmentBudget => exact .inl rfl

/-- Options whose numbers of vertices are confused differ in nothing else. -/
theorem OneApart.renumber_eq {left right : Options} (apart : left.OneApart right)
    (confused : Confused left.vertexCount right.vertexCount) : right.renumber = left.renumber := by
  -- Numbers that are confused are not the same, so they are what differs.
  have other : left.vertexCount ≠ right.vertexCount := by
    intro same
    rw [← same] at confused
    cases found : left.vertexCount <;> rw [found] at confused <;> cases confused
  cases apart with
  | renumber => exact absurd rfl other
  | addReverses | mergePolicy | check | dropSelfLoops | order | transposed | vertexCount
  | segmentBudget => rfl

end DistGraph.Options
