import DistGraph.Proofs.Sorter
import Mathlib.Data.List.Nodup
import Mathlib.Data.List.Perm.Basic

/-! Sorting leaves no choice as soon as entries that compare alike are the same. -/

namespace DistGraph

namespace EdgeRecord

/-- Key numbers tell sort keys apart. -/
theorem keyNumber_inj {transposed : Bool} {left right : EdgeRecord} :
    left.keyNumber transposed = right.keyNumber transposed ↔
      left.sortKey transposed = right.sortKey transposed := by
  have := left.originNumber_lt
  have := right.originNumber_lt
  have := left.originSeq.toNat_lt
  have := right.originSeq.toNat_lt
  simp only [sortKey, SortKey.mk.injEq, ← and_assoc, ← pairNumber_inj]
  rw [and_assoc, ← UInt32.toNat_inj, ← UInt64.toNat_inj]
  -- The parts of the key are digits of the number, each below its base.
  unfold keyNumber originNumber at *
  omega

/-- Whether no two entries of a list of records are sorted by the same key. -/
def Keyed (transposed : Bool) (records : List EdgeRecord) : Prop :=
  (records.map fun record => record.sortKey transposed).Nodup

instance decidableKeyed (transposed : Bool) (records : List EdgeRecord) :
    Decidable (Keyed transposed records) :=
  inferInstanceAs (Decidable (List.Nodup _))

variable {transposed : Bool} {records others : List EdgeRecord}

/-- Keys do not depend on the order of the records. -/
theorem Keyed.perm (keyed : Keyed transposed records) (same : records.Perm others) :
    Keyed transposed others :=
  (same.map _).nodup_iff.mp keyed

/-- Fewer records have different keys all the more. -/
theorem Keyed.sublist (keyed : Keyed transposed records) (part : others.Sublist records) :
    Keyed transposed others :=
  List.Nodup.sublist (part.map _) keyed

/-- Records in the order of their places of origin have different keys. -/
theorem keyed_of_ordered
    (ordered : records.Pairwise fun left right => left.originNumber < right.originNumber)
    (transposed : Bool) : Keyed transposed records := by
  -- Equal keys would have equal places of origin.
  refine List.pairwise_map.mpr (ordered.imp fun {left right} before same => ?_)
  have rank : left.originRank = right.originRank := congrArg SortKey.originRank same
  have seq : left.originSeq = right.originSeq := congrArg SortKey.originSeq same
  unfold originNumber at before
  rw [rank, seq] at before
  exact Nat.lt_irrefl _ before

/-- Records with the same key are the same entry. -/
theorem Keyed.eq_of_sortKey_eq (keyed : Keyed transposed records) {left right : EdgeRecord}
    (leftHeld : left ∈ records) (rightHeld : right ∈ records)
    (same : left.sortKey transposed = right.sortKey transposed) : left = right :=
  List.inj_on_of_nodup_map keyed leftHeld rightHeld same

end EdgeRecord

namespace Sorter.Lawful

variable {sorter other : Sorter} {transposed : Bool} {records others : List EdgeRecord}

/-- Records with different keys can be put in order in one way only. -/
theorem records_eq_of_sorted (lawful : sorter.Lawful) (keyed : EdgeRecord.Keyed transposed records)
    (same : others.Perm records)
    (sorted : others.Pairwise fun left right =>
      left.keyNumber transposed ≤ right.keyNumber transposed) :
    sorter.records transposed records = others := by
  have permuted := lawful.records_perm transposed records
  refine List.Perm.eq_of_pairwise ?_ (lawful.keys_ascend transposed records) sorted
    (permuted.trans same.symm)
  intro left right leftHeld rightHeld before after
  exact keyed.eq_of_sortKey_eq (permuted.subset leftHeld) (same.subset rightHeld)
    (EdgeRecord.keyNumber_inj.mp (Nat.le_antisymm before after))

/-- Whoever sorts records with different keys comes to the same list. -/
theorem records_eq (lawful : sorter.Lawful) (otherLawful : other.Lawful)
    (keyed : EdgeRecord.Keyed transposed records) (same : others.Perm records) :
    sorter.records transposed records = other.records transposed others :=
  lawful.records_eq_of_sorted keyed ((otherLawful.records_perm _ _).trans same)
    (otherLawful.keys_ascend _ _)

/-- Equal ids cannot be told apart, so whoever sorts ids comes to the same list. -/
theorem vertices_eq {ids otherIds : List VertexId} (lawful : sorter.Lawful) (otherLawful : other.Lawful)
    (same : ids.Perm otherIds) : sorter.vertices ids = other.vertices otherIds :=
  List.Perm.eq_of_pairwise (fun _ _ _ _ before after => UInt64.le_antisymm before after)
    (lawful.vertices_sorted _) (otherLawful.vertices_sorted _)
    ((lawful.vertices_perm _).trans (same.trans (otherLawful.vertices_perm _).symm))

/-- Entries with the same vertex and degree cannot be told apart, so whoever sorts entries by degree comes
to the same list. -/
theorem byDegree_eq {entries otherEntries : List DegreeShare} (lawful : sorter.Lawful)
    (otherLawful : other.Lawful) (same : entries.Perm otherEntries) :
    sorter.byDegree entries = other.byDegree otherEntries := by
  refine List.Perm.eq_of_pairwise ?_ (lawful.byDegree_sorted _) (otherLawful.byDegree_sorted _)
    ((lawful.byDegree_perm _).trans (same.trans (otherLawful.byDegree_perm _).symm))
  intro left right _ _ before after
  -- Two entries come before each other only if both vertex and degree are the same.
  obtain ⟨vertex, degree⟩ := left
  obtain ⟨otherVertex, otherDegree⟩ := right
  simp only [DegreeShare.ranksBefore_iff, UInt64.lt_iff_toNat_lt, UInt64.le_iff_toNat_le,
    ← UInt64.toNat_inj] at before after
  rw [DegreeShare.mk.injEq, ← UInt64.toNat_inj, ← UInt64.toNat_inj]
  omega

end Sorter.Lawful

end DistGraph
