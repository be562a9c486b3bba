import DistGraph.Proofs.Edge.Ends
import Mathlib.Data.List.Sort
import DistGraph.Proofs.Numbering.Bijection
import DistGraph.Proofs.Numbering.DegreeOrder

/-! New ids are determined by the endpoints of all records and the vertices that are listed. -/

namespace DistGraph

/-- Of two entries at most one comes before the other. -/
instance DegreeShare.precedes_asymm (order : IdOrder) : Std.Asymm (DegreeShare.Precedes order) := by
  refine ⟨fun left right before after => ?_⟩
  unfold DegreeShare.Precedes at before after
  simp only [UInt64.lt_iff_toNat_lt, ← UInt64.toNat_inj] at before after
  cases order with
  | degreeDescending => simp only at before after; omega
  | byId => simp only at before after; omega

namespace Numbering

variable {size : Nat} {members others : Fin size → Member size}
  {records otherRecords : Fin size → List EdgeRecord} {vertices otherVertices : Fin size → List VertexId}
  {order : IdOrder} {transposed : Bool}
  (lawful : ∀ rank, (members rank).sorter.Lawful) (otherLawful : ∀ rank, (others rank).sorter.Lawful)
  (sameEnds : ((everything records).map EdgeRecord.ends).Perm ((everything otherRecords).map EdgeRecord.ends))
  (sameVertices : ∀ vertex, vertex ∈ everything vertices ↔ vertex ∈ everything otherVertices)

include lawful otherLawful sameEnds sameVertices

section Entries

variable {named owned otherNamed otherOwned : Fin size → List DegreeShare}
  (entries : Entries members records vertices order transposed named owned)
  (otherEntries : Entries others otherRecords otherVertices order transposed otherNamed otherOwned)

include entries otherEntries

/-- The same vertices are numbered. -/
theorem mem_everything_owned_congr (old : VertexId) :
    old ∈ everything (labelsOf owned) ↔ old ∈ everything (labelsOf otherOwned) := by
  rw [entries.mem_everything_owned_iff lawful, otherEntries.mem_everything_owned_iff otherLawful,
    sameVertices]
  -- An endpoint of a record can be read off the endpoints of all.
  have named : ∀ all : List EdgeRecord, (∃ record ∈ all, old = record.src ∨ old = record.dst) ↔
      ∃ pair ∈ all.map EdgeRecord.ends, old = pair.1 ∨ old = pair.2 := by
    intro all
    simp only [List.mem_map, exists_exists_and_eq_and]
    rfl
  rw [named, named]
  simp only [sameEnds.mem_iff]

/-- Every rank has the same entries. -/
theorem mem_owned_of_mem_owned {rank : Fin size} {entry : DegreeShare} (member : entry ∈ owned rank) :
    entry ∈ otherOwned rank := by
  have home := (entries.mem_owned_iff lawful).mp (List.mem_map_of_mem member)
  have numbered : entry.vertex ∈ everything (labelsOf otherOwned) :=
    (mem_everything_owned_congr lawful otherLawful sameEnds sameVertices entries otherEntries _).mp
      (mem_everything.mpr ⟨rank, List.mem_map_of_mem member⟩)
  obtain ⟨owner, held⟩ := mem_everything.mp numbered
  obtain ⟨known, otherHome⟩ := (otherEntries.mem_owned_iff otherLawful).mp held
  have here : entry.vertex ∈ labelsOf otherOwned rank :=
    (otherEntries.mem_owned_iff otherLawful).mpr ⟨known, home.2⟩
  obtain ⟨other, otherMember, sameVertex⟩ := List.mem_map.mp here
  -- The degree is the number of records with the vertex as their major endpoint.
  have counted := (EdgeRecord.filter_ends_perm (fun record => record.major transposed = entry.vertex)
    (fun left right same => by simp only [EdgeRecord.major_congr same]) sameEnds).length_eq
  rw [List.length_map, List.length_map, ← entries.degree_eq lawful member, ← sameVertex,
    ← otherEntries.degree_eq otherLawful otherMember, UInt64.toNat_inj] at counted
  obtain ⟨vertex, degree⟩ := entry
  cases sameVertex
  cases counted
  exact otherMember

end Entries

variable {agreement otherAgreement : Agreement size}
  (agreed : Agreed members records vertices order transposed agreement)
  (otherAgreed : Agreed others otherRecords otherVertices order transposed otherAgreement)

include agreed otherAgreed

/-- The same vertices are numbered in the same order. -/
theorem owned_eq : agreement.owned = otherAgreement.owned := by
  funext rank
  -- Lists in the same strict order are equal if they have the same members.
  refine (agreed.entries.owned_precedes lawful rank).eq_of_mem_iff
    (otherAgreed.entries.owned_precedes otherLawful rank) fun entry => ⟨?_, ?_⟩
  · exact mem_owned_of_mem_owned lawful otherLawful sameEnds sameVertices agreed.entries
      otherAgreed.entries
  · exact mem_owned_of_mem_owned otherLawful lawful sameEnds.symm (fun vertex => (sameVertices vertex).symm)
      otherAgreed.entries agreed.entries

/-- The ranks come to the same partition. -/
theorem partition_eq : agreement.partition = otherAgreement.partition := by
  -- The partition is made of the counts of what the ranks number.
  have owned := owned_eq lawful otherLawful sameEnds sameVertices agreed otherAgreed
  have shared := agreed.shared
  rw [owned, otherAgreed.shared] at shared
  exact (Except.ok.inj shared).symm

/-- Every rank keeps the same numbering. -/
theorem parts_eq : agreement.parts = otherAgreement.parts := by
  unfold Agreement.parts
  rw [owned_eq lawful otherLawful sameEnds sameVertices agreed otherAgreed,
    partition_eq lawful otherLawful sameEnds sameVertices agreed otherAgreed]

end Numbering

end DistGraph
