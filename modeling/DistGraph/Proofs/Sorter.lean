import DistGraph.Sorter
import Mathlib.Algebra.Group.Nat.Defs

/-! Sort keys as numbers, and the laws of sorting. -/

namespace DistGraph

/-- Comparing in turn compares the numbers that are made of both parts. -/
theorem then_compare {high high' low low' base : Nat} (small : low < base) (small' : low' < base) :
    (compare high high').then (compare low low') =
      compare (high * base + low) (high' * base + low') := by
  -- The high parts decide as long as they differ, since a low part is less than one of them.
  rcases Nat.lt_trichotomy high high' with less | same | greater
  · have : (high + 1) * base ≤ high' * base := Nat.mul_le_mul_right base less
    rw [Nat.add_mul, Nat.one_mul] at this
    rw [Nat.compare_eq_lt.mpr less, Ordering.lt_then, eq_comm, Nat.compare_eq_lt]
    omega
  · subst same
    rw [Nat.compare_eq_eq.mpr rfl, Ordering.eq_then]
    simp only [Nat.compare_eq_ite_lt]
    simp
  · have : (high' + 1) * base ≤ high * base := Nat.mul_le_mul_right base greater
    rw [Nat.add_mul, Nat.one_mul] at this
    rw [Nat.compare_eq_gt.mpr greater, Ordering.gt_then, eq_comm, Nat.compare_eq_gt]
    omega

/-- Words compare like their numbers. -/
theorem compare_uint64 (left right : UInt64) : compare left right = compare left.toNat right.toNat := by
  simp only [compare, compareOfLessAndEq, UInt64.lt_iff_toNat_lt, ← UInt64.toNat_inj]

/-- Half words compare like their numbers. -/
theorem compare_uint32 (left right : UInt32) : compare left right = compare left.toNat right.toNat := by
  simp only [compare, compareOfLessAndEq, UInt32.lt_iff_toNat_lt, ← UInt32.toNat_inj]

/-- The place of origin of a record as one number. -/
def EdgeRecord.originNumber (record : EdgeRecord) : Nat :=
  record.originRank.toNat * 2 ^ 64 + record.originSeq.toNat

/-- The endpoints of an edge as one number, in which the source weighs more. -/
def pairNumber (src dst : VertexId) : Nat :=
  src.toNat * 2 ^ 64 + dst.toNat

/-- Endpoints can be read off the number of their pair. -/
theorem pairNumber_inj {src dst src' dst' : VertexId} :
    pairNumber src dst = pairNumber src' dst' ↔ src = src' ∧ dst = dst' := by
  -- Both endpoints are digits of the number, as they are words.
  have := src.toNat_lt
  have := dst.toNat_lt
  have := src'.toNat_lt
  have := dst'.toNat_lt
  simp only [pairNumber, ← UInt64.toNat_inj]
  omega

/-- Endpoints compare like the numbers of their pairs. -/
theorem compare_pair (src dst src' dst' : VertexId) :
    (compare src src').then (compare dst dst') =
      compare (pairNumber src dst) (pairNumber src' dst') := by
  rw [compare_uint64, compare_uint64, then_compare dst.toNat_lt dst'.toNat_lt]
  rfl

/-- A sort key as one number. -/
def EdgeRecord.keyNumber (transposed : Bool) (record : EdgeRecord) : Nat :=
  pairNumber (record.major transposed) (record.minor transposed) * 2 ^ 96 + record.originNumber

/-- The number of a place of origin takes a word and a half. -/
theorem EdgeRecord.originNumber_lt (record : EdgeRecord) : record.originNumber < 2 ^ 96 := by
  -- The rank is half a word, and the place on it a word.
  have := record.originRank.toNat_lt
  have := record.originSeq.toNat_lt
  unfold originNumber
  omega

/-- Sort keys compare like their numbers. -/
theorem EdgeRecord.compare_sortKey (transposed : Bool) (left right : EdgeRecord) :
    (left.sortKey transposed).compare (right.sortKey transposed) =
      compare (left.keyNumber transposed) (right.keyNumber transposed) := by
  have origins : (compare left.originRank right.originRank).then
      (compare left.originSeq right.originSeq) = compare left.originNumber right.originNumber := by
    rw [compare_uint32, compare_uint64, then_compare left.originSeq.toNat_lt right.originSeq.toNat_lt]
    rfl
  -- The four comparisons are taken two by two, and both pairs together.
  unfold SortKey.compare
  simp only [sortKey]
  rw [origins, ← Ordering.then_assoc, compare_pair,
    then_compare left.originNumber_lt right.originNumber_lt]
  rfl

/-- Sorting compares key numbers. -/
theorem EdgeRecord.sortsBefore_iff {transposed : Bool} {left right : EdgeRecord} :
    sortsBefore transposed left right = true ↔
      left.keyNumber transposed ≤ right.keyNumber transposed := by
  rw [sortsBefore, compare_sortKey, Nat.isLE_compare]

/-- Degrees are ranked by size with the greatest first, and equal ones by vertex. -/
theorem DegreeShare.ranksBefore_iff {left right : DegreeShare} : left.ranksBefore right = true ↔
    right.degree < left.degree ∨ left.degree = right.degree ∧ left.vertex ≤ right.vertex := by
  simp [ranksBefore]

/-- Keys compare by the endpoint that records are sorted by, then by the other one, then by origin. -/
theorem EdgeRecord.keyNumber_le_iff {transposed : Bool} {left right : EdgeRecord} :
    left.keyNumber transposed ≤ right.keyNumber transposed ↔
      (left.major transposed).toNat < (right.major transposed).toNat ∨
        (left.major transposed).toNat = (right.major transposed).toNat ∧
          ((left.minor transposed).toNat < (right.minor transposed).toNat ∨
            (left.minor transposed).toNat = (right.minor transposed).toNat ∧
              left.originNumber ≤ right.originNumber) := by
  have := left.originNumber_lt
  have := right.originNumber_lt
  have := (left.minor transposed).toNat_lt
  have := (right.minor transposed).toNat_lt
  -- The parts of the key are digits of the number, each below its base.
  unfold keyNumber pairNumber
  omega

/-- What every way to sort keeps to. -/
structure Sorter.Lawful (sorter : Sorter) : Prop where
  /-- Sorting records neither loses nor adds any. -/
  records_perm : ∀ transposed entries, (sorter.records transposed entries).Perm entries
  /-- Sorted records are in the order of their keys. -/
  records_sorted : ∀ transposed entries, (sorter.records transposed entries).Pairwise
    fun left right => EdgeRecord.sortsBefore transposed left right = true
  /-- Sorting ids neither loses nor adds any. -/
  vertices_perm : ∀ entries, (sorter.vertices entries).Perm entries
  /-- Sorted ids ascend. -/
  vertices_sorted : ∀ entries, (sorter.vertices entries).Pairwise (· ≤ ·)
  /-- Sorting degrees by vertex neither loses nor adds any. -/
  byVertex_perm : ∀ entries, (sorter.byVertex entries).Perm entries
  /-- Degrees sorted by vertex ascend by vertex. -/
  byVertex_sorted : ∀ entries, (sorter.byVertex entries).Pairwise
    fun left right => left.vertex ≤ right.vertex
  /-- Sorting degrees by size neither loses nor adds any. -/
  byDegree_perm : ∀ entries, (sorter.byDegree entries).Perm entries
  /-- Degrees sorted by size are in the order of their ranks. -/
  byDegree_sorted : ∀ entries, (sorter.byDegree entries).Pairwise
    fun left right => left.ranksBefore right = true

/-- Sorted records have ascending keys. -/
theorem Sorter.Lawful.keys_ascend {sorter : Sorter} (lawful : sorter.Lawful) (transposed : Bool)
    (records : List EdgeRecord) : (sorter.records transposed records).Pairwise
      fun left right => left.keyNumber transposed ≤ right.keyNumber transposed :=
  (lawful.records_sorted transposed records).imp EdgeRecord.sortsBefore_iff.mp

/-- Merging sorted halves sorts by a word of each entry. -/
theorem mergeSort_ascends {α : Type} (word : α → UInt64) (entries : List α) :
    (entries.mergeSort fun left right => decide (word left ≤ word right)).Pairwise
      fun left right => word left ≤ word right := by
  -- Comparing words is transitive and total, as sorting by merging asks for.
  refine (List.pairwise_mergeSort ?_ ?_ entries).imp (by simp)
  · simp only [decide_eq_true_eq, UInt64.le_iff_toNat_le]
    omega
  · simp only [Bool.or_eq_true, decide_eq_true_eq, UInt64.le_iff_toNat_le]
    omega

/-- Merging sorted halves sorts. -/
theorem Sorter.stable_lawful : Sorter.stable.Lawful where
  records_perm _ _ := List.mergeSort_perm _ _
  records_sorted transposed _ := by
    apply List.pairwise_mergeSort
    · intro a b c first second
      rw [EdgeRecord.sortsBefore_iff] at *
      omega
    · intro a b
      rw [Bool.or_eq_true, EdgeRecord.sortsBefore_iff, EdgeRecord.sortsBefore_iff]
      omega
  vertices_perm _ := List.mergeSort_perm _ _
  vertices_sorted entries := mergeSort_ascends id entries
  byVertex_perm _ := List.mergeSort_perm _ _
  byVertex_sorted entries := mergeSort_ascends DegreeShare.vertex entries
  byDegree_perm _ := List.mergeSort_perm _ _
  -- Higher degrees precede lower ones, so this order is not that of one word.
  byDegree_sorted entries := by
    apply List.pairwise_mergeSort
    · simp only [DegreeShare.ranksBefore_iff, UInt64.lt_iff_toNat_lt, UInt64.le_iff_toNat_le,
        ← UInt64.toNat_inj]
      omega
    · simp only [Bool.or_eq_true, DegreeShare.ranksBefore_iff, UInt64.lt_iff_toNat_lt,
        UInt64.le_iff_toNat_le, ← UInt64.toNat_inj]
      omega

/-- The sorts of a sorter that is handed everything back to front. -/
def Sorter.backwards (sorter : Sorter) : Sorter where
  -- Entries that compare alike may come out in another order.
  records transposed entries := sorter.records transposed entries.reverse
  vertices entries := sorter.vertices entries.reverse
  byVertex entries := sorter.byVertex entries.reverse
  byDegree entries := sorter.byDegree entries.reverse

/-- What comes back to front is sorted all the same. -/
theorem Sorter.Lawful.backwards {sorter : Sorter} (lawful : sorter.Lawful) : sorter.backwards.Lawful where
  -- The entries are turned around before they are sorted, which changes neither of the laws.
  records_perm transposed entries := (lawful.records_perm transposed _).trans entries.reverse_perm
  records_sorted transposed _ := lawful.records_sorted transposed _
  vertices_perm entries := (lawful.vertices_perm _).trans entries.reverse_perm
  vertices_sorted _ := lawful.vertices_sorted _
  byVertex_perm entries := (lawful.byVertex_perm _).trans entries.reverse_perm
  byVertex_sorted _ := lawful.byVertex_sorted _
  byDegree_perm entries := (lawful.byDegree_perm _).trans entries.reverse_perm
  byDegree_sorted _ := lawful.byDegree_sorted _

end DistGraph
