import DistGraph.Numbering.Degrees
import DistGraph.Proofs.Everything
import DistGraph.Error
import DistGraph.Proofs.Runs
import DistGraph.Proofs.Sorter
import DistGraph.Proofs.Word

/-! Merging the degrees of vertices loses none of either. -/

namespace DistGraph.Degrees

/-- The sum of all degrees. -/
def total (entries : List DegreeShare) : Nat :=
  (entries.map fun entry => entry.degree.toNat).sum

/-- The total of two lists is the sum of their totals. -/
@[simp] theorem total_append (front back : List DegreeShare) :
    total (front ++ back) = total front + total back := by
  simp [total]

/-- The total does not depend on the order. -/
theorem total_perm {left right : List DegreeShare} (same : left.Perm right) : total left = total right :=
  (same.map _).sum_nat

/-- All entries of a vertex as one. -/
def joined (run : DegreeShare × List DegreeShare) : DegreeShare :=
  ⟨run.1.vertex, UInt64.ofNat (total (run.1 :: run.2))⟩

variable {sorter : Sorter} {entries merged : List DegreeShare}

/-- The runs of the entries of one vertex each. -/
def byVertex (sorter : Sorter) (entries : List DegreeShare) : List (DegreeShare × List DegreeShare) :=
  runs (fun left right => left.vertex == right.vertex) (sorter.byVertex entries)

/-- There is one run for every vertex, and it has all entries of the vertex. -/
theorem byVertex_runs (lawful : sorter.Lawful) (entries : List DegreeShare) :
    SortedRuns (fun entry : DegreeShare => entry.vertex.toNat) (sorter.byVertex entries)
      (byVertex sorter entries) :=
  runs_sorted (fun _ _ => by simp [UInt64.toNat_inj])
    ((lawful.byVertex_sorted entries).imp UInt64.le_iff_toNat_le.mp)

/-- The runs by vertex have the entries that were sorted. -/
theorem byVertex_perm (lawful : sorter.Lawful) (entries : List DegreeShare) :
    ((byVertex sorter entries).flatMap fun run => run.1 :: run.2).Perm entries := by
  unfold byVertex
  rw [flatMap_runs]
  exact lawful.byVertex_perm entries

/-- Together the runs have all degrees. -/
theorem sum_total_byVertex (lawful : sorter.Lawful) (entries : List DegreeShare) :
    ((byVertex sorter entries).map fun run => total (run.1 :: run.2)).sum = total entries := by
  rw [← total_perm (byVertex_perm lawful entries)]
  -- From here on it is a fact about any runs, by induction on them.
  generalize byVertex sorter entries = cut
  induction cut with
  | nil => rfl
  | cons run later ih => rw [List.map_cons, List.sum_cons, List.flatMap_cons, total_append, ih]

/-- The entries of a vertex are summed up if the sum fits a word. -/
theorem join_eq_ok_iff {run : DegreeShare × List DegreeShare} {share : DegreeShare} :
    (do
      let degree ← Word.sum ((run.1 :: run.2).map DegreeShare.degree)
      return (⟨run.1.vertex, degree⟩ : DegreeShare)) = .ok share ↔
      total (run.1 :: run.2) < UInt64.size ∧ share = joined run := by
  -- The sum is taken over words, and it is a word exactly if the total is below the bound.
  have numbers : (((run.1 :: run.2).map DegreeShare.degree).map UInt64.toNat).sum =
      total (run.1 :: run.2) := by
    rw [List.map_map]
    rfl
  rw [bind_eq_ok_iff]
  simp only [Word.sum_eq_ok_iff, numbers, pure_eq_ok, Except.ok.injEq, joined]
  constructor
  · rintro ⟨degree, same, rfl⟩
    have word := degree.toNat_lt_size
    rw [same, UInt64.ofNat_toNat]
    exact ⟨word, rfl⟩
  · rintro ⟨fits, rfl⟩
    exact ⟨_, (UInt64.toNat_ofNat_of_lt' fits).symm, rfl⟩

/-- Entries are merged if the sum of each vertex fits a word. -/
theorem merge_eq_ok_iff : merge sorter entries = .ok merged ↔
    (∀ run ∈ byVertex sorter entries, total (run.1 :: run.2) < UInt64.size) ∧
      merged = (byVertex sorter entries).map joined := by
  unfold merge byVertex
  constructor
  · intro made
    -- All runs have been joined, so that each fits into a word.
    have fits : ∀ run ∈ runs (fun left right => left.vertex == right.vertex) (sorter.byVertex entries),
        total (run.1 :: run.2) < UInt64.size := by
      intro run member
      obtain ⟨share, success⟩ := exists_of_mapM_eq_ok made run member
      exact (join_eq_ok_iff.mp success).1
    refine ⟨fits, ?_⟩
    rw [mapM_eq_ok fun run member => join_eq_ok_iff.mpr ⟨fits run member, rfl⟩,
      Except.ok.injEq] at made
    exact made.symm
  · rintro ⟨fits, rfl⟩
    exact mapM_eq_ok fun run member => join_eq_ok_iff.mpr ⟨fits run member, rfl⟩

/-- Whether entries tell of the same vertices and as many edges as others, once of each vertex. -/
structure Merged (entries merged : List DegreeShare) : Prop where
  /-- Every vertex has one entry. -/
  once : (merged.map DegreeShare.vertex).Nodup
  /-- No vertex is lost or added. -/
  same : ∀ vertex, vertex ∈ merged.map DegreeShare.vertex ↔ vertex ∈ entries.map DegreeShare.vertex
  /-- No edge is lost or added. -/
  total : total merged = total entries

/-- Merging leaves one entry for each vertex and the total of all degrees. -/
theorem merged_of_merge (lawful : sorter.Lawful) (made : merge sorter entries = .ok merged) :
    Merged entries merged := by
  obtain ⟨fits, rfl⟩ := merge_eq_ok_iff.mp made
  have vertices : ((byVertex sorter entries).map joined).map DegreeShare.vertex =
      (byVertex sorter entries).map fun run => run.1.vertex := by
    rw [List.map_map]
    rfl
  obtain ⟨whole, rising⟩ := byVertex_runs lawful entries
  refine ⟨?_, fun vertex => ?_, ?_⟩
  · rw [vertices]
    refine List.pairwise_map.mpr (rising.imp ?_)
    intro left right less same
    exact Nat.ne_of_lt less (congrArg UInt64.toNat same)
  · rw [vertices, List.mem_map, ← ((byVertex_perm lawful entries).map _).mem_iff, List.mem_map]
    constructor
    · rintro ⟨run, member, rfl⟩
      exact ⟨run.1, List.mem_flatMap.mpr ⟨run, member, by simp⟩, rfl⟩
    · rintro ⟨entry, member, rfl⟩
      obtain ⟨run, held, inside⟩ := List.mem_flatMap.mp member
      -- All entries of a run are of the same vertex.
      have own := whole run held
      rw [own] at inside
      have same := of_decide_eq_true (List.mem_filter.mp inside).2
      exact ⟨run, held, (UInt64.toNat_inj.mp same).symm⟩
  · rw [← sum_total_byVertex lawful entries, total, List.map_map]
    congr 1
    apply List.map_congr_left
    intro run member
    rw [Function.comp_apply, joined, UInt64.toNat_ofNat_of_lt' (fits run member)]

/-- Entries can be merged if all degrees together fit a word. -/
theorem exists_merge (lawful : sorter.Lawful) (fits : total entries < UInt64.size) :
    ∃ merged, merge sorter entries = .ok merged := by
  refine ⟨_, merge_eq_ok_iff.mpr ⟨fun run member => ?_, rfl⟩⟩
  -- The total of a run is a part of the whole total.
  obtain ⟨front, back, split⟩ := List.append_of_mem member
  have whole := sum_total_byVertex lawful entries
  rw [split, List.map_append, List.map_cons, List.sum_append, List.sum_cons] at whole
  omega

/-- Merging leaves no more entries than there were. -/
theorem length_merged_le (lawful : sorter.Lawful) (made : merge sorter entries = .ok merged) :
    merged.length ≤ entries.length := by
  obtain ⟨-, rfl⟩ := merge_eq_ok_iff.mp made
  -- There is one entry for each run, and no run is empty.
  have fewer := length_runs_le (fun left right : DegreeShare => left.vertex == right.vertex)
    (sorter.byVertex entries)
  rw [(lawful.byVertex_perm entries).length_eq] at fewer
  rw [List.length_map]
  exact fewer

/-- Putting entries in the order of the new ids neither loses nor adds any. -/
theorem arrange_perm (lawful : sorter.Lawful) (order : IdOrder) (entries : List DegreeShare) :
    (arrange sorter order entries).Perm entries := by
  -- Entries are sorted by degree or left as they are.
  unfold arrange
  cases order with
  | degreeDescending => exact lawful.byDegree_perm entries
  | byId => exact List.Perm.refl entries

/-- Some of the entries have no more than the total of all. -/
theorem total_filter_le (keeps : DegreeShare → Bool) (entries : List DegreeShare) :
    total (entries.filter keeps) ≤ total entries := by
  -- By induction on the entries, each of which is counted or left out.
  induction entries with
  | nil => exact Nat.le_refl _
  | cons entry entries ih =>
    rw [List.filter_cons]
    unfold total at ih ⊢
    split
    · simp only [List.map_cons, List.sum_cons]
      omega
    · simp only [List.map_cons, List.sum_cons]
      omega

section Named

variable {size : Nat} {records : List EdgeRecord} {vertices : List VertexId} {transposed : Bool}

/-- The entries of the vertices that a rank names, before they are merged. -/
def shares (records : List EdgeRecord) (vertices : List VertexId) (transposed : Bool) :
    List DegreeShare :=
  records.flatMap (ofRecord transposed) ++ vertices.map fun vertex => ⟨vertex, 0⟩

/-- Ranks name their vertices if there is a buffer for the entries and no sum is too great. -/
theorem named_eq_ok_iff {member : Member size} {named : List DegreeShare} :
    Degrees.named member records vertices transposed = .ok named ↔
      member.makeRoom Wire.degree.bytes (2 * records.length + vertices.length) = .ok () ∧
        merge member.sorter (shares records vertices transposed) = .ok named := by
  -- The buffer is asked for before the entries are merged.
  unfold Degrees.named
  rw [bind_eq_ok_iff]
  simp only [Failure.ofDefect_eq_ok_iff]
  constructor
  · rintro ⟨⟨⟩, granted, made⟩
    exact ⟨granted, made⟩
  · rintro ⟨granted, made⟩
    exact ⟨(), granted, made⟩

/-- Each record has an entry for either endpoint, and each listed vertex has one. -/
theorem length_shares : (shares records vertices transposed).length =
    2 * records.length + vertices.length := by
  -- By induction on the records, with two entries for each.
  have ends : (records.flatMap (ofRecord transposed)).length = 2 * records.length := by
    induction records with
    | nil => rfl
    | cons record records ih =>
      have first : (ofRecord transposed record).length = 2 := rfl
      rw [List.flatMap_cons, List.length_append, ih, List.length_cons, first]
      omega
  rw [shares, List.length_append, List.length_map, ends]

/-- Listing a vertex adds no edge. -/
theorem total_listed (vertices : List VertexId) :
    total (vertices.map fun vertex => ⟨vertex, 0⟩) = 0 := by
  induction vertices with
  | nil => rfl
  | cons vertex vertices ih => simpa [total] using ih

/-- Every edge is counted once. -/
theorem total_shares : total (shares records vertices transposed) = records.length := by
  -- Listed vertices add nothing, and a record adds one to its major endpoint.
  unfold shares
  rw [total_append, total_listed, Nat.add_zero]
  induction records with
  | nil => rfl
  | cons record records ih =>
    rw [List.flatMap_cons, total_append, ih, List.length_cons, Nat.add_comm]
    rfl

/-- Entries are of endpoints and of listed vertices. -/
theorem mem_shares {vertex : VertexId} :
    vertex ∈ (shares records vertices transposed).map DegreeShare.vertex ↔
      (∃ record ∈ records, vertex = record.src ∨ vertex = record.dst) ∨ vertex ∈ vertices := by
  -- Either orientation has an entry for both endpoints.
  have ends : ∀ record : EdgeRecord, (∃ entry ∈ ofRecord transposed record, entry.vertex = vertex) ↔
      vertex = record.src ∨ vertex = record.dst := by
    intro record
    cases transposed <;> simp [ofRecord, EdgeRecord.major, EdgeRecord.minor, eq_comm, or_comm]
  simp only [shares, List.map_append, List.mem_append, List.mem_map, List.mem_flatMap]
  refine or_congr ?_ ?_
  · constructor
    · intro ⟨entry, ⟨record, held, member⟩, same⟩
      exact ⟨record, held, (ends record).mp ⟨entry, member, same⟩⟩
    · intro ⟨record, held, named⟩
      obtain ⟨entry, member, same⟩ := (ends record).mpr named
      exact ⟨entry, ⟨record, held, member⟩, same⟩
  · simp

/-- All ranks together have two entries for each record and one for each listed vertex. -/
theorem length_everything_shares {records : Fin size → List EdgeRecord}
    {vertices : Fin size → List VertexId} :
    (everything fun rank => shares (records rank) (vertices rank) transposed).length =
      2 * (everything records).length + (everything vertices).length := by
  -- By induction on the number of ranks.
  induction size with
  | zero => simp
  | succ size ih =>
    simp only [everything_succ, List.length_append, length_shares, ih]
    omega

/-- All ranks together count every edge once. -/
theorem total_everything {entries : Fin size → List DegreeShare} {records : Fin size → List EdgeRecord}
    (each : ∀ rank, total (entries rank) = (records rank).length) :
    total (everything entries) = (everything records).length := by
  -- By induction on the number of ranks.
  induction size with
  | zero => simp [total]
  | succ size ih =>
    rw [everything_succ, everything_succ, total_append, List.length_append, each 0,
      ih fun rank => each rank.succ]

end Named

end DistGraph.Degrees
