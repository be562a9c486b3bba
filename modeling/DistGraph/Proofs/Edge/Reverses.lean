import DistGraph.Proofs.Edge.Ends

/-! Adding the reverses that are missing closes records under reversal, and adds nothing that this does not
take. -/

namespace DistGraph

namespace EdgeRecord

/-- Whether the endpoints of a record do not come after those of another one. -/
def EndsBefore (left right : EdgeRecord) : Prop :=
  -- The source weighs more, and the place of origin nothing.
  left.src < right.src ∨ left.src = right.src ∧ left.dst ≤ right.dst

instance decidableEndsBefore (left right : EdgeRecord) : Decidable (left.EndsBefore right) :=
  inferInstanceAs (Decidable (_ ∨ _))

/-- Records are in the order of the numbers of their pairs. -/
theorem endsBefore_iff {left right : EdgeRecord} : left.EndsBefore right ↔ left.pair ≤ right.pair := by
  have := left.dst.toNat_lt
  have := right.dst.toNat_lt
  -- The source and the destination are the two digits of the number of a pair.
  simp only [EndsBefore, pair, pairNumber, UInt64.lt_iff_toNat_lt, UInt64.le_iff_toNat_le,
    ← UInt64.toNat_inj]
  omega

/-- Records in the order of their endpoints are in that of the numbers of their pairs. -/
theorem pair_sorted_of_endsBefore {records : List EdgeRecord} (sorted : records.Pairwise EndsBefore) :
    records.Pairwise fun left right => left.pair ≤ right.pair :=
  sorted.imp endsBefore_iff.mp

end EdgeRecord

namespace Cleanup

/-- Among completed endpoints are those that there were and their reverses. -/
theorem mem_completedEnds {ends : List (VertexId × VertexId)} {pair : VertexId × VertexId} :
    pair ∈ completedEnds ends ↔ pair ∈ ends ∨ pair.swap ∈ ends := by
  simp only [completedEnds, List.mem_append, List.mem_map, List.mem_filter, Bool.and_eq_true, bne_iff_ne,
    Bool.not_eq_true', List.contains_eq_mem, decide_eq_false_iff_not]
  constructor
  · rintro (own | ⟨other, ⟨held, -⟩, rfl⟩)
    · exact .inl own
    · exact .inr held
  · rintro (own | turned)
    · exact .inl own
    · by_cases there : pair ∈ ends
      · exact .inl there
      · -- Endpoints that are not there differ from their reverse, which is.
        refine .inr ⟨pair.swap, ⟨turned, fun same => there ?_, by simpa using there⟩, by simp⟩
        have loop : pair = pair.swap := Prod.ext same.symm same
        rwa [loop]

/-- Whether every pair of endpoints has its reverse. -/
def Symmetric (ends : List (VertexId × VertexId)) : Prop :=
  -- A pair of the same vertex twice is its own reverse.
  ∀ pair ∈ ends, pair.swap ∈ ends

/-- Being closed under reversal has nothing to do with the order. -/
theorem Symmetric.perm {ends others : List (VertexId × VertexId)} (symmetric : Symmetric ends)
    (same : others.Perm ends) : Symmetric others :=
  fun pair member => same.symm.subset (symmetric pair (same.subset member))

/-- Completed endpoints are closed under reversal. -/
theorem symmetric_completedEnds (ends : List (VertexId × VertexId)) : Symmetric (completedEnds ends) := by
  intro pair member
  rw [mem_completedEnds] at member ⊢
  rwa [Prod.swap_swap, or_comm]

section Sorted

variable {records : List EdgeRecord}
  (sorted : records.Pairwise fun left right => left.pair ≤ right.pair)

include sorted

/-- Reverses are added exactly of the records that lack one and are no self-loops. -/
theorem missingReverses_eq : missingReverses records =
    (records.filter fun record => record.src ≠ record.dst ∧
      record.ends.swap ∉ records.map EdgeRecord.ends).map EdgeRecord.reversed := by
  refine congrArg _ (List.filter_congr fun record _ => ?_)
  -- Halving finds a record with the turned endpoints exactly if there is one.
  rw [Bool.eq_iff_iff, decide_eq_true_eq, ← hasEdge_swap_iff sorted]
  simp [EdgeRecord.isSelfLoop]

/-- An edge is there afterwards if it or its reverse was there before. -/
theorem mem_ends_withReverses {pair : VertexId × VertexId} :
    pair ∈ (withReverses records).map EdgeRecord.ends ↔
      pair ∈ records.map EdgeRecord.ends ∨ pair.swap ∈ records.map EdgeRecord.ends := by
  rw [map_ends_withReverses sorted, mem_completedEnds]

/-- No reverse is added if none is missing. -/
theorem withReverses_of_symmetric (symmetric : Symmetric (records.map EdgeRecord.ends)) :
    withReverses records = records := by
  -- A missing reverse would be the reverse of an edge that is there.
  have none_missing : missingReverses records = [] := by
    rw [missingReverses_eq sorted, List.map_eq_nil_iff, List.filter_eq_nil_iff]
    intro record held lacking
    have lacks := (of_decide_eq_true lacking).2
    exact lacks (symmetric _ (List.mem_map_of_mem held))
  rw [withReverses, none_missing, List.append_nil]

/-- Once reverses are added, none is missing, in whatever order the records are put by their endpoints. -/
theorem withReverses_settled {again : List EdgeRecord} (same : again.Perm (withReverses records))
    (sortedAgain : again.Pairwise fun left right => left.pair ≤ right.pair) :
    withReverses again = again := by
  refine withReverses_of_symmetric sortedAgain (Symmetric.perm ?_ (same.map EdgeRecord.ends))
  rw [map_ends_withReverses sorted]
  exact symmetric_completedEnds _

/-- A reverse that is added is no self-loop, and there was no record with its endpoints. -/
theorem ends_of_mem_missingReverses {record : EdgeRecord} (added : record ∈ missingReverses records) :
    record.src ≠ record.dst ∧ record.ends ∉ records.map EdgeRecord.ends := by
  rw [missingReverses_eq sorted] at added
  obtain ⟨origin, lacking, rfl⟩ := List.mem_map.mp added
  obtain ⟨apart, absent⟩ := of_decide_eq_true (List.mem_filter.mp lacking).2
  -- The endpoints of the reverse are those of its origin the other way round.
  exact ⟨apart.symm, absent⟩

/-- No record of some kind is added if records of that kind are self-loops or have endpoints that were there
before. -/
theorem filter_withReverses (keeps : EdgeRecord → Bool)
    (known : ∀ record, keeps record = true →
      record.src = record.dst ∨ record.ends ∈ records.map EdgeRecord.ends) :
    (withReverses records).filter keeps = records.filter keeps := by
  -- What is added is no self-loop and has endpoints that were not there.
  have none_added : (missingReverses records).filter keeps = [] := by
    rw [List.filter_eq_nil_iff]
    intro record added kept
    obtain ⟨apart, absent⟩ := ends_of_mem_missingReverses sorted added
    rcases known record kept with loop | there
    · exact apart loop
    · exact absent there
  rw [withReverses, List.filter_append, none_added, List.append_nil]

end Sorted

/-- Whether records are closed under reversal, and are others with no more added than that takes. -/
structure Closes (records closed : List EdgeRecord) : Prop where
  /-- The others come first, as they are, and then a turned copy of each of them that is no self-loop and
  has no reverse among them, in their order. -/
  added : closed = records ++ (records.filter fun record => record.src ≠ record.dst ∧
    record.ends.swap ∉ records.map EdgeRecord.ends).map
      fun record => { record with src := record.dst, dst := record.src }
  /-- Vertices are joined in one direction exactly if they are joined in the other one. -/
  symmetric : ∀ src dst, (src, dst) ∈ closed.map EdgeRecord.ends ↔ (dst, src) ∈ closed.map EdgeRecord.ends
  /-- Vertices that were joined in both directions are joined by no more records. -/
  paired : ∀ src dst, (src, dst) ∈ records.map EdgeRecord.ends → (dst, src) ∈ records.map EdgeRecord.ends →
    closed.filter (fun record => record.ends = (src, dst)) =
      records.filter fun record => record.ends = (src, dst)
  /-- There are no self-loops but those that there were. -/
  loops : closed.filter EdgeRecord.isSelfLoop = records.filter EdgeRecord.isSelfLoop
  /-- In whatever order they are put by their endpoints, no reverse is missing. -/
  settled : ∀ again : List EdgeRecord, again.Perm closed → again.Pairwise EdgeRecord.EndsBefore →
    withReverses again = again

/-- Records that are sorted by their endpoints are closed under reversal by what is added to them, and by
nothing less. -/
theorem withReverses_closes {records : List EdgeRecord} (sorted : records.Pairwise EdgeRecord.EndsBefore) :
    Closes records (withReverses records) := by
  -- The five parts of the closure, of which only the last needs the result to be sorted again.
  have sorted := EdgeRecord.pair_sorted_of_endsBefore sorted
  refine ⟨?_, fun src dst => ?_, fun src dst there _ => ?_, ?_, fun again same sortedAgain => ?_⟩
  · rw [withReverses, missingReverses_eq sorted]
    rfl
  · rw [mem_ends_withReverses sorted, mem_ends_withReverses sorted]
    exact or_comm
  · refine filter_withReverses sorted _ fun record between => .inr ?_
    rwa [of_decide_eq_true between]
  · exact filter_withReverses sorted _ fun record loop => .inl (eq_of_beq loop)
  · exact withReverses_settled sorted same (EdgeRecord.pair_sorted_of_endsBefore sortedAgain)

/-- Of two parallel edges, a pair of opposite ones and a self-loop, only the parallel ones are turned around,
each with what it carries. -/
theorem withReverses_closes_sample :
    let records : List EdgeRecord := [.ofEdge ⟨1, 2, some ⟨7⟩, none, none⟩ 0 0, .ofEdge ⟨2, 1, none, none, none⟩ 0 1,
      .ofEdge ⟨3, 1, none, some 5, none⟩ 1 0, .ofEdge ⟨3, 1, some ⟨9⟩, none, some 4⟩ 0 2,
      .ofEdge ⟨3, 3, none, none, none⟩ 0 3]
    records.Pairwise EdgeRecord.EndsBefore ∧
    withReverses records = records ++
      [.ofEdge ⟨1, 3, none, some 5, none⟩ 1 0, .ofEdge ⟨1, 3, some ⟨9⟩, none, some 4⟩ 0 2] ∧
    Closes records (withReverses records) := by
  intro records
  -- The records are concrete, and what is added to them is a part of the closure.
  have sorted : records.Pairwise EdgeRecord.EndsBefore := by decide
  have closes := withReverses_closes sorted
  exact ⟨sorted, closes.added, closes⟩

end Cleanup

end DistGraph
