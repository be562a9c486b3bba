import DistGraph.Proofs.Numbering.Determined
import DistGraph.Proofs.Ties

/-! Ranks name and number the same vertices in whatever order the entries come that compare alike. -/

namespace DistGraph.Degrees

variable {sorter other : Sorter} {entries otherEntries merged otherMerged : List DegreeShare}

/-- The entries of one vertex tell its whole degree. -/
theorem total_run_eq (lawful : sorter.Lawful) {run : DegreeShare × List DegreeShare}
    (member : run ∈ byVertex sorter entries) :
    total (run.1 :: run.2) = degreeOf entries run.1.vertex := by
  rw [(byVertex_runs lawful entries).whole run member]
  simp only [UInt64.toNat_inj]
  exact degreeOf_perm (lawful.byVertex_perm entries) _

/-- Entries of a vertex that is not there tell no degree. -/
theorem degreeOf_of_not_mem {vertex : VertexId} (absent : vertex ∉ entries.map DegreeShare.vertex) :
    degreeOf entries vertex = 0 := by
  -- The sum has no terms.
  have none_left : entries.filter (fun entry => entry.vertex = vertex) = [] := by
    rw [List.filter_eq_nil_iff]
    intro entry member same
    exact absent (List.mem_map.mpr ⟨entry, member, of_decide_eq_true same⟩)
  rw [degreeOf, none_left]
  rfl

/-- Merging leaves degrees that fit a word. -/
theorem degreeOf_lt_of_merge (lawful : sorter.Lawful) (made : merge sorter entries = .ok merged)
    (vertex : VertexId) : degreeOf entries vertex < UInt64.size := by
  rw [← degreeOf_merge lawful made]
  -- The degree that merging leaves of a vertex is a word, or none is left.
  by_cases member : vertex ∈ merged.map DegreeShare.vertex
  · obtain ⟨entry, held, rfl⟩ := List.mem_map.mp member
    rw [degreeOf_of_mem (merged_of_merge lawful made).once held]
    exact entry.degree.toNat_lt_size
  · rw [degreeOf_of_not_mem member]
    decide

/-- Sums that are too great are all there is to refuse. -/
theorem eq_overflow_of_merge {defect : Defect} (refused : merge sorter entries = .error defect) :
    defect = .overflow := by
  -- The first run that fails has a sum that is too great.
  obtain ⟨run, -, failed⟩ := exists_of_mapM_eq_error refused
  cases sum : Word.sum ((run.1 :: run.2).map DegreeShare.degree) with
  | ok degree =>
    rw [sum] at failed
    cases failed
  | error reason =>
    rw [sum] at failed
    cases failed
    exact Word.eq_overflow_of_sum sum

section Congr

variable (lawful : sorter.Lawful) (otherLawful : other.Lawful) (same : entries.Perm otherEntries)

include lawful otherLawful same

/-- Merging the same entries leaves no other entries. -/
theorem mem_merged_of_mem_merged (made : merge sorter entries = .ok merged)
    (otherMade : merge other otherEntries = .ok otherMerged) {entry : DegreeShare}
    (member : entry ∈ merged) : entry ∈ otherMerged := by
  have left := merged_of_merge lawful made
  have right := merged_of_merge otherLawful otherMade
  have found : entry.vertex ∈ otherMerged.map DegreeShare.vertex := by
    rw [right.same, ← (same.map _).mem_iff, ← left.same]
    exact List.mem_map_of_mem member
  obtain ⟨twin, held, vertex⟩ := List.mem_map.mp found
  -- Both tell the degree of the vertex among the entries that were merged.
  have degree : twin.degree = entry.degree := by
    rw [← UInt64.toNat_inj, ← degreeOf_of_mem right.once held, ← degreeOf_of_mem left.once member, vertex,
      degreeOf_merge otherLawful otherMade, degreeOf_merge lawful made, degreeOf_perm same]
  have equal : twin = entry := by
    cases twin
    cases entry
    cases vertex
    cases degree
    rfl
  exact equal ▸ held

/-- Whoever merges the same entries succeeds if anyone does, and comes to the same list. -/
theorem merge_eq_ok_of_merge_eq_ok (made : merge sorter entries = .ok merged) :
    merge other otherEntries = .ok merged := by
  -- The degree of a vertex is the same sum in any order, and fits a word in any.
  have fits : ∀ run ∈ byVertex other otherEntries, total (run.1 :: run.2) < UInt64.size := by
    intro run member
    rw [total_run_eq otherLawful member, ← degreeOf_perm same]
    exact degreeOf_lt_of_merge lawful made _
  have otherMade := merge_eq_ok_iff.mpr ⟨fits, rfl⟩
  rw [otherMade, Except.ok.injEq]
  exact (arrange_precedes otherLawful .byId otherMade).eq_of_mem_iff
    (arrange_precedes lawful .byId made) fun entry =>
      ⟨mem_merged_of_mem_merged otherLawful lawful same.symm otherMade made,
        mem_merged_of_mem_merged lawful otherLawful same made otherMade⟩

/-- Entries are merged to the same list, or refused with the same defect, by whomever they are sorted. -/
theorem merge_congr : merge sorter entries = merge other otherEntries := by
  cases made : merge sorter entries with
  | ok merged => exact (merge_eq_ok_of_merge_eq_ok lawful otherLawful same made).symm
  | error defect =>
    -- If the other succeeded, so would this one.
    cases otherMade : merge other otherEntries with
    | ok merged =>
      rw [merge_eq_ok_of_merge_eq_ok otherLawful lawful same.symm otherMade] at made
      cases made
    | error otherDefect => rw [eq_overflow_of_merge made, eq_overflow_of_merge otherMade]

end Congr

/-- Whoever puts entries in the order of the new ids comes to the same list. -/
theorem arrange_congr (lawful : sorter.Lawful) (otherLawful : other.Lawful) (order : IdOrder)
    (entries : List DegreeShare) : arrange sorter order entries = arrange other order entries := by
  cases order with
  | degreeDescending => exact lawful.byDegree_eq otherLawful (.refl entries)
  | byId => rfl

section Named

variable {size : Nat} {member twin : Member size} {records otherRecords : List EdgeRecord}
  {vertices : List VertexId} {transposed otherTransposed : Bool}

/-- Ranks with the same memory name the same vertices if their records and lists tell of the same
entries. -/
theorem named_congr (memory : twin.memory = member.memory) (lawful : member.sorter.Lawful)
    (twinLawful : twin.sorter.Lawful) (same : (shares otherRecords vertices otherTransposed).Perm
      (shares records vertices transposed)) :
    Degrees.named twin otherRecords vertices otherTransposed =
      Degrees.named member records vertices transposed := by
  have length := same.length_eq
  rw [length_shares, length_shares] at length
  -- Both steps depend on the number of entries and on what they add up to.
  have steps : ∀ (member : Member size) records transposed, Degrees.named member records vertices transposed =
      (member.makeRoom Wire.degree.bytes (2 * records.length + vertices.length) >>= fun _ =>
        Failure.ofDefect (merge member.sorter (shares records vertices transposed))) :=
    fun _ _ _ => rfl
  rw [steps, steps, Member.makeRoom_congr memory, length, merge_congr twinLawful lawful same]

end Named

end DistGraph.Degrees

namespace DistGraph.Numbering

variable {size : Nat} {members others : Fin size → Member size}
  {records otherRecords : Fin size → List EdgeRecord} {vertices : Fin size → List VertexId}
  {order : IdOrder} {transposed otherTransposed : Bool} {agreement : Agreement size}

/-- Ranks with the same memory come to the same agreement if their records and lists tell of the same
entries. -/
theorem Assigned.congr (assigned : Assigned members records vertices order transposed agreement)
    (memory : ∀ rank, (others rank).memory = (members rank).memory)
    (lawful : ∀ rank, (members rank).sorter.Lawful) (otherLawful : ∀ rank, (others rank).sorter.Lawful)
    (same : ∀ rank, (Degrees.shares (otherRecords rank) (vertices rank) otherTransposed).Perm
      (Degrees.shares (records rank) (vertices rank) transposed)) :
    Assigned others otherRecords vertices order otherTransposed agreement := by
  -- Part by part: naming, merging, arranging and sending see the entries only up to their order.
  obtain ⟨⟨⟨names, merged, made, owned⟩, meet⟩, shared, filled, answerable⟩ := assigned
  refine ⟨⟨⟨fun rank => ?_, merged, fun rank => ?_, ?_⟩, ?_⟩, shared, filled, ?_, fun rank => ?_⟩
  · rw [Degrees.named_congr (memory rank) (lawful rank) (otherLawful rank) (same rank)]
    exact names rank
  · rw [Degrees.merge_congr (otherLawful rank) (lawful rank) (.refl _)]
    exact made rank
  · rw [owned]
    exact funext fun rank => Degrees.arrange_congr (lawful rank) (otherLawful rank) order (merged rank)
  · exact meet.of_map_perm memory fun _ => .refl _
  · exact answerable.asked.of_map_perm memory fun _ => .refl _
  · exact (answerable.answered rank).of_memory_eq (memory rank)

end DistGraph.Numbering
