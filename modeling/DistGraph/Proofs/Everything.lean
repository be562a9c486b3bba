import Mathlib.Algebra.GroupWithZero.Nat
import Mathlib.Data.List.Nodup
import Mathlib.Data.List.OfFn

/-! What all ranks hold, as one list in rank order. -/

namespace DistGraph

variable {size : Nat} {α β : Type}

/-- All items that the ranks hold, in rank order. -/
def everything (held : Fin size → List α) : List α :=
  -- The items of a rank stay together.
  (List.ofFn held).flatten

/-- Nothing is held where there are no ranks. -/
@[simp] theorem everything_zero (held : Fin 0 → List α) : everything held = [] := by
  simp [everything]

/-- The first rank comes before all others. -/
theorem everything_succ (held : Fin (size + 1) → List α) :
    everything held = held 0 ++ everything fun rank : Fin size => held rank.succ := by
  simp [everything, List.ofFn_succ]

/-- A rank that is alone holds everything. -/
@[simp] theorem everything_one (held : Fin 1 → List α) : everything held = held 0 := by
  rw [everything_succ, everything_zero, List.append_nil]

/-- What the ranks hold by their numbers, listed in the order of the numbers. -/
theorem everything_val (held : Nat → List α) :
    (everything fun rank : Fin size => held rank.val) = (List.range size).flatMap held := by
  -- Only the numbers of the ranks are read, so listing ranks is listing these.
  have listed : (List.ofFn fun rank : Fin size => held rank.val) = (List.range size).map held := by
    apply List.ext_getElem
    · simp
    · intro rank _ _
      simp
  rw [everything, listed, List.flatMap_def]

/-- Ranks that hold the same items hold copies of them. -/
theorem everything_copies (items : List α) :
    (everything fun _ : Fin size => items) = (List.replicate size items).flatten := by
  rw [everything, List.ofFn_const]

/-- A copy for every rank makes as many items as ranks times what is copied. -/
@[simp] theorem length_everything_copies (items : List α) :
    (everything fun _ : Fin size => items).length = items.length * size := by
  rw [everything_copies, List.length_flatten, List.map_replicate, List.sum_replicate_nat, Nat.mul_comm]

/-- An item is somewhere if some rank holds it. -/
@[simp] theorem mem_everything {held : Fin size → List α} {item : α} :
    item ∈ everything held ↔ ∃ rank, item ∈ held rank := by
  simp only [everything, List.mem_flatten, List.mem_ofFn]
  -- The lists that are joined are just those of the ranks.
  constructor
  · rintro ⟨_, ⟨rank, rfl⟩, member⟩
    exact ⟨rank, member⟩
  · intro ⟨rank, member⟩
    exact ⟨_, ⟨rank, rfl⟩, member⟩

/-- What is true of the items of every rank is true of all items. -/
theorem forall_everything {held : Fin size → List α} {holds : α → Prop}
    (each : ∀ rank, ∀ item ∈ held rank, holds item) : ∀ item ∈ everything held, holds item := by
  intro item member
  obtain ⟨rank, own⟩ := mem_everything.mp member
  exact each rank item own

/-- Ranks may each drop items of their own. -/
theorem filter_everything (keeps : α → Bool) (held : Fin size → List α) :
    (everything held).filter keeps = everything fun rank => (held rank).filter keeps := by
  simp [everything, List.filter_flatten, List.map_ofFn, Function.comp_def]

/-- Ranks may each change items of their own. -/
theorem map_everything (change : α → β) (held : Fin size → List α) :
    (everything held).map change = everything fun rank => (held rank).map change := by
  simp [everything, List.map_flatten, List.map_ofFn, Function.comp_def]

/-- There are as many items as all ranks hold together. -/
theorem length_everything (held : Fin size → List α) :
    (everything held).length = (List.ofFn fun rank => (held rank).length).sum := by
  rw [everything, List.length_flatten, List.map_ofFn]
  rfl

/-- Ranks that each hold at most some times as much as another hold so altogether. -/
theorem length_everything_le {held : Fin size → List α} {other : Fin size → List β} {factor : Nat}
    (each : ∀ rank, (held rank).length ≤ factor * (other rank).length) :
    (everything held).length ≤ factor * (everything other).length := by
  -- The induction is on the number of ranks, the first one being split off.
  induction size with
  | zero => simp
  | succ size ih =>
    have first := each 0
    have later := ih fun rank => each rank.succ
    rw [everything_succ, everything_succ, List.length_append, List.length_append, Nat.mul_add]
    omega

/-- Ranks that each hold no more than another hold no more altogether. -/
theorem length_everything_mono {held : Fin size → List α} {other : Fin size → List β}
    (each : ∀ rank, (held rank).length ≤ (other rank).length) :
    (everything held).length ≤ (everything other).length := by
  have bound : ∀ rank, (held rank).length ≤ 1 * (other rank).length := by simpa using each
  simpa using length_everything_le bound

/-- No rank holds more than all ranks do. -/
theorem length_le_everything (held : Fin size → List α) (rank : Fin size) :
    (held rank).length ≤ (everything held).length := by
  exact (List.sublist_flatten_of_mem (List.mem_ofFn.mpr ⟨rank, rfl⟩)).length_le

/-- Words that count the items of the ranks add up to the number of all items, if each rank's items can be
counted by a word. -/
theorem sum_counts_eq_of_short {held : Fin size → List α}
    (short : ∀ rank, (held rank).length < UInt64.size) :
    ((List.ofFn fun rank => UInt64.ofNat (held rank).length).map UInt64.toNat).sum =
      (everything held).length := by
  rw [length_everything, List.map_ofFn]
  congr 2
  exact funext fun rank => UInt64.toNat_ofNat_of_lt' (short rank)

/-- Words that count the items of the ranks add up to the number of all items, if a word counts them. -/
theorem sum_counts_eq {held : Fin size → List α} (fits : (everything held).length < UInt64.size) :
    ((List.ofFn fun rank => UInt64.ofNat (held rank).length).map UInt64.toNat).sum =
      (everything held).length :=
  sum_counts_eq_of_short fun rank => Nat.lt_of_le_of_lt (length_le_everything held rank) fits

/-- Ranks that each hold the same items in some order hold the same items altogether. -/
theorem everything_perm {held other : Fin size → List α} (same : ∀ rank, (held rank).Perm (other rank)) :
    (everything held).Perm (everything other) := by
  induction size with
  | zero => simp
  | succ size ih =>
    -- The first rank goes first in both, so its items only change places among themselves.
    rw [everything_succ, everything_succ]
    exact (same 0).append (ih fun rank => same rank.succ)

/-- An item more on one rank is an item more over all. -/
theorem everything_cons_perm {held more : Fin size → List α} (rank : Fin size) {item : α}
    (own : more rank = item :: held rank) (others : ∀ other, other ≠ rank → more other = held other) :
    (everything more).Perm (item :: everything held) := by
  induction size with
  | zero => exact rank.elim0
  | succ size ih =>
    rw [everything_succ, everything_succ]
    -- The item is in front of all if the first rank has it, and else moves past what that one holds.
    cases rank using Fin.cases with
    | zero =>
      have same : (fun rank : Fin size => more rank.succ) = fun rank => held rank.succ :=
        funext fun rank => others _ (Fin.succ_ne_zero rank)
      rw [own, same]
      exact List.Perm.refl _
    | succ rank =>
      rw [others 0 (Fin.succ_ne_zero rank).symm]
      have later : (everything fun rank : Fin size => more rank.succ).Perm
          (item :: everything fun rank : Fin size => held rank.succ) :=
        ih rank own fun other different => others _ fun same => different (Fin.succ_inj.mp same)
      exact (later.append_left _).trans List.perm_middle

/-- What ranks hold in two parts can be listed part by part. -/
theorem everything_append_perm (held more : Fin size → List α) :
    (everything fun rank => held rank ++ more rank).Perm (everything held ++ everything more) := by
  induction size with
  | zero => simp
  | succ size ih =>
    -- The first rank's second part moves past the first parts of all later ranks.
    simp only [everything_succ, List.append_assoc]
    have rest := ih (fun rank => held rank.succ) fun rank => more rank.succ
    exact ((rest.append_left _).trans (List.perm_append_comm_assoc ..)).append_left _

/-- What is held for every rank is all that is held, whether it is listed by holder or by receiver. -/
theorem everything_swap_perm {count : Nat} (held : Fin size → Fin count → List α) :
    (everything fun receiver => everything fun sender => held sender receiver).Perm
      (everything fun sender => everything (held sender)) := by
  induction size with
  | zero => simp [everything]
  | succ size ih =>
    -- What the first holder has is listed first by holder, but stands in front of each receiver's list.
    simp only [everything_succ]
    exact (everything_append_perm _ _).trans ((ih fun sender => held sender.succ).append_left _)

/-- Items that are handed to one rank each are all still there. -/
theorem everything_filter_perm (owner : α → Fin size) (items : List α) :
    (everything fun rank => items.filter fun item => owner item = rank).Perm items := by
  induction items with
  | nil => simp [everything]
  | cons item items ih =>
    -- One more item is one more for its owner, and nothing for any other rank.
    refine (everything_cons_perm (owner item) ?_ ?_).trans (ih.cons item)
    · simp
    · intro other different
      simp [different.symm]

/-- Items in rank order are in order if those of each rank are, and those of lower ranks precede
those of higher ones. -/
theorem pairwise_everything {held : Fin size → List α} {precedes : α → α → Prop}
    (each : ∀ rank, (held rank).Pairwise precedes)
    (between : ∀ lower upper, lower < upper →
      ∀ left ∈ held lower, ∀ right ∈ held upper, precedes left right) :
    (everything held).Pairwise precedes := by
  -- Two items are on the same rank or on ranks of which one is lower.
  refine List.pairwise_flatten.mpr ⟨?_, ?_⟩
  · intro items member
    obtain ⟨rank, rfl⟩ := List.mem_ofFn.mp member
    exact each rank
  · rw [List.pairwise_ofFn]
    exact between

/-- Where all items come from one of the sources, those of this one are all. -/
theorem flatMap_only {sources : List α} {items : α → List β} {source : α} (once : sources.Nodup)
    (member : source ∈ sources) (others : ∀ other ∈ sources, other ≠ source → items other = []) :
    sources.flatMap items = items source := by
  -- What stands before the source and behind it is not the source, so that it yields nothing.
  obtain ⟨front, back, rfl⟩ := List.append_of_mem member
  obtain ⟨absentFront, absentBack⟩ : source ∉ front ∧ source ∉ back := by
    have once := List.nodup_middle.mp once
    simpa using (List.nodup_cons.mp once).1
  have front_nil : front.flatMap items = [] := List.flatMap_eq_nil_iff.mpr fun other held =>
    others other (by simp [held]) fun same => absentFront (same ▸ held)
  have back_nil : back.flatMap items = [] := List.flatMap_eq_nil_iff.mpr fun other held =>
    others other (by simp [held]) fun same => absentBack (same ▸ held)
  simp [front_nil, back_nil]

/-- Where one rank holds all items, its own are all. -/
theorem everything_only {held : Fin size → List α} (rank : Fin size)
    (others : ∀ other, other ≠ rank → held other = []) : everything held = held rank := by
  induction size with
  | zero => exact rank.elim0
  | succ size ih =>
    rw [everything_succ]
    -- Nothing follows the items of the first rank, or nothing comes before those of the later ones.
    cases rank using Fin.cases with
    | zero =>
      have none_later : (everything fun rank : Fin size => held rank.succ) = [] :=
        List.eq_nil_iff_forall_not_mem.mpr fun item member => by
          obtain ⟨later, held_later⟩ := mem_everything.mp member
          simp [others _ (Fin.succ_ne_zero later)] at held_later
      rw [none_later, List.append_nil]
    | succ rank =>
      rw [others 0 (Fin.succ_ne_zero rank).symm, List.nil_append]
      exact ih rank fun other different => others _ fun same => different (Fin.succ_inj.mp same)

/-- Items may be taken from what each rank holds. -/
theorem flatMap_everything (held : Fin size → List α) (items : α → List β) :
    (everything held).flatMap items = everything fun rank => (held rank).flatMap items := by
  induction size with
  | zero => rfl
  | succ size ih => rw [everything_succ, everything_succ, List.flatMap_append, ih]

/-- The number of items before a rank's own. -/
def before (held : Fin size → List α) (rank : Nat) : Nat :=
  -- These are the items of all lower ranks.
  ((List.ofFn held).take rank).flatten.length

/-- Nothing comes before the first rank. -/
@[simp] theorem before_zero (held : Fin size → List α) : before held 0 = 0 := by
  simp [before]

/-- Before a later rank come the items of the first one. -/
theorem before_succ (held : Fin (size + 1) → List α) (rank : Nat) :
    before held (rank + 1) = (held 0).length + before (fun rank : Fin size => held rank.succ) rank := by
  simp [before, List.ofFn_succ]

/-- The items of a rank lie before those of every later rank. -/
theorem before_add_length_le (held : Fin size → List α) {lower : Fin size} {upper : Nat}
    (below : lower.val < upper) : before held lower + (held lower).length ≤ before held upper := by
  induction size generalizing upper with
  | zero => exact lower.elim0
  | succ size ih =>
    obtain ⟨upper, rfl⟩ : ∃ less, upper = less + 1 := ⟨upper - 1, by omega⟩
    rw [before_succ]
    -- The first rank's items are at the front, and all other ranks follow on them alike.
    cases lower using Fin.cases with
    | zero =>
      rw [Fin.val_zero, before_zero]
      omega
    | succ lower =>
      have later : before (fun rank : Fin size => held rank.succ) lower + (held lower.succ).length ≤
          before (fun rank : Fin size => held rank.succ) upper := ih _ (by simpa using below)
      rw [Fin.val_succ, before_succ]
      omega

/-- Before the next rank come the items of this one as well. -/
theorem before_add_length (held : Fin size → List α) (rank : Fin size) :
    before held (rank + 1) = before held rank + (held rank).length := by
  have inside : rank.val < (List.ofFn held).length := by simp
  rw [before, before, List.take_add_one, List.getElem?_eq_getElem inside]
  simp

/-- All items lie before the end. -/
theorem before_all (held : Fin size → List α) : before held size = (everything held).length := by
  rw [before, List.take_of_length_le (by simp), everything]

/-- The items of a rank are found after those of all lower ranks. -/
theorem getElem?_everything (held : Fin size → List α) (rank : Fin size) {place : Nat}
    (inside : place < (held rank).length) :
    (everything held)[before held rank + place]? = (held rank)[place]? := by
  induction size with
  | zero => exact rank.elim0
  | succ size ih =>
    rw [everything_succ]
    -- Only behind the first rank the place is counted past the first rank's items.
    cases rank using Fin.cases with
    | zero => rw [Fin.val_zero, before_zero, Nat.zero_add, List.getElem?_append_left inside]
    | succ rank =>
      rw [Fin.val_succ, before_succ, Nat.add_assoc, List.getElem?_append_right (by omega),
        Nat.add_sub_cancel_left]
      exact ih (fun rank => held rank.succ) rank inside

/-- Every position lies among the items of some rank. -/
theorem exists_rank_of_lt (held : Fin size → List α) {position : Nat}
    (inside : position < (everything held).length) :
    ∃ rank : Fin size, before held rank ≤ position ∧ position < before held (rank + 1) := by
  -- The rank is the first one whose items end beyond the position.
  have ends : ∃ count, position < before held count := ⟨size, before_all held ▸ inside⟩
  obtain ⟨rank, found⟩ : ∃ rank, Nat.find ends = rank + 1 := by
    refine Nat.exists_eq_succ_of_ne_zero fun zero => ?_
    have beyond := Nat.find_spec ends
    rw [zero, before_zero] at beyond
    exact Nat.not_lt_zero _ beyond
  have known : rank + 1 ≤ size := found ▸ Nat.find_min' ends (before_all held ▸ inside)
  have earlier : rank < Nat.find ends := by omega
  exact ⟨⟨rank, known⟩, Nat.le_of_not_lt (Nat.find_min ends earlier), found ▸ Nat.find_spec ends⟩

/-- Items are numbered in rank order. -/
theorem zipIdx_everything (held : Fin size → List α) (start : Nat) :
    (everything held).zipIdx start =
      everything fun rank => (held rank).zipIdx (start + before held rank) := by
  induction size generalizing start with
  | zero => simp
  | succ size ih =>
    -- The later ranks are numbered on from the length of the first one.
    rw [everything_succ, everything_succ, List.zipIdx_append, ih]
    simp [before_succ, Nat.add_assoc]

end DistGraph
