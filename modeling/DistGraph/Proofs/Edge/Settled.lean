import Mathlib.Data.List.Nodup
import DistGraph.Proofs.Edge.Ends

/-! Cleaning up leaves edges that it has nothing left to do for. -/

namespace DistGraph.Reference

/-- Whether edges with some endpoints need no cleaning up any more. -/
structure Settled (options : Options) (ends : List (VertexId × VertexId)) : Prop where
  /-- No self-loop is left to be dropped. -/
  proper : options.dropSelfLoops = true → ∀ pair ∈ ends, pair.1 ≠ pair.2
  /-- No two edges are left to be merged. -/
  once : options.mergePolicy ≠ .keepAll → ends.Nodup
  /-- No reverse is left to be added. -/
  closed : options.addReverses = true → ∀ pair ∈ ends, pair.1 ≠ pair.2 → pair.swap ∈ ends

variable {options : Options}

/-- Whether anything is left to do has nothing to do with the order. -/
theorem Settled.perm {ends others : List (VertexId × VertexId)} (settled : Settled options ends)
    (same : others.Perm ends) : Settled options others :=
  ⟨fun drops pair member => settled.proper drops pair (same.subset member),
    fun merges => same.nodup_iff.mpr (settled.once merges),
    fun adds pair member apart => same.symm.subset (settled.closed adds pair (same.subset member) apart)⟩

section Cleaning

variable {policy : MergePolicy} {edges : List PlacedEdge}

/-- Reverses that were missing are not parallel to anything, if no two edges are. -/
theorem addReverses_once (once : (edges.map PlacedEdge.ends).Nodup) :
    ((addReverses edges).map PlacedEdge.ends).Nodup := by
  unfold addReverses
  rw [List.map_append, List.map_map]
  refine List.Nodup.append once ?_ ?_
  · -- Reverses of edges that are not parallel are not parallel to each other.
    have turned : (PlacedEdge.ends ∘ PlacedEdge.reversed) = Prod.swap ∘ PlacedEdge.ends := rfl
    rw [turned, ← List.map_map]
    exact ((List.filter_sublist.map _).nodup once).map Prod.swap_injective
  · -- A reverse is added only if no edge has its endpoints.
    intro ends own added
    obtain ⟨other, held, rfl⟩ := List.mem_map.mp own
    obtain ⟨origin, lacking, same⟩ := List.mem_map.mp added
    have absent := (List.mem_filter.mp lacking).2
    simp only [Bool.and_eq_true, Bool.not_eq_true', List.any_eq_false, decide_eq_true_eq] at absent
    exact absent.2 other held same.symm

/-- Once reverses are added, every edge but a self-loop has one. -/
theorem addReverses_closed : ∀ pair ∈ (addReverses edges).map PlacedEdge.ends,
    pair.1 ≠ pair.2 → pair.swap ∈ (addReverses edges).map PlacedEdge.ends := by
  intro pair member apart
  obtain ⟨placed, found, rfl⟩ := List.mem_map.mp member
  rcases mem_addReverses.mp found with own | ⟨origin, held, -, -, rfl⟩
  · -- The reverse of an edge was there before or is added now.
    by_cases there : ∃ other ∈ edges, other.ends = placed.reversed.ends
    · obtain ⟨other, held, ends⟩ := there
      exact List.mem_map.mpr ⟨other, mem_addReverses.mpr (.inl held), ends⟩
    · have lacks : ∀ other ∈ edges, other.ends ≠ placed.reversed.ends :=
        fun other held ends => there ⟨other, held, ends⟩
      exact List.mem_map.mpr ⟨placed.reversed,
        mem_addReverses.mpr (.inr ⟨placed, own, apart, lacks, rfl⟩), rfl⟩
  · -- The reverse of an added reverse is the edge that it was added for.
    exact List.mem_map.mpr ⟨origin, mem_addReverses.mpr (.inl held), rfl⟩

/-- Cleaned up edges need no cleaning up any more. -/
theorem processed_settled (options : Options) (edges : List Edge) :
    Settled options ((processed options edges).map PlacedEdge.ends) := by
  constructor
  · intro drops pair member
    obtain ⟨placed, found, rfl⟩ := List.mem_map.mp member
    obtain ⟨origin, held, ends⟩ := exists_of_mem_clean found
    unfold kept at held
    rw [if_pos drops] at held
    -- Every edge of the graph lies between the endpoints of one that was handed in and kept.
    have proper : origin.edge.src ≠ origin.edge.dst := by
      simpa using (List.mem_filter.mp held).2
    rcases ends with same | ⟨-, same⟩
    · rw [same]
      exact proper
    · rw [same]
      exact proper.symm
  · -- Merging leaves endpoints once, and reverses are added only where none was there.
    intro merges
    have once := mergeParallel_distinct options.mergePolicy (kept options edges)
    unfold processed clean
    rw [if_neg merges]
    split
    · exact addReverses_once once
    · exact once
  · intro adds
    unfold processed clean
    rw [if_pos adds]
    exact addReverses_closed

end Cleaning

section Again

/-- An edge without parallel ones is merged into itself. -/
theorem merge_alone (policy : MergePolicy) (placed : PlacedEdge) : placed.merge policy [] = placed := by
  -- A single weight is what the weights are combined to, and without one there is none.
  unfold PlacedEdge.merge
  split
  · rfl
  · obtain ⟨⟨src, dst, weight, id, kind⟩, position⟩ := placed
    cases weight <;> rfl

/-- Merging leaves edges as they are if no two are parallel. -/
theorem mergeParallel_perm_of_once (policy : MergePolicy) {edges : List PlacedEdge}
    (once : (edges.map PlacedEdge.ends).Nodup) : (mergeParallel policy edges).Perm edges := by
  have alone : ∀ placed ∈ edges, edges.filter (fun other => other.ends = placed.ends) = [placed] := by
    intro placed held
    have others : ∀ other ∈ edges, decide (other.ends = placed.ends) = (other == placed) := by
      intro other member
      refine (decide_eq_decide.mpr ⟨fun same => ?_, fun same => congrArg _ same⟩).trans
        (beq_eq_decide other placed).symm
      exact List.inj_on_of_nodup_map once member held same
    rw [List.filter_congr others, List.filter_beq, List.count_eq_one_of_mem once.of_map held]
    rfl
  rw [List.perm_ext_iff_of_nodup (mergeParallel_distinct policy edges).of_map once.of_map]
  intro placed
  rw [mem_mergeParallel]
  constructor
  · -- The group of an edge is that edge, which merging leaves as it is.
    rintro ⟨first, later, split, rfl⟩
    have found := split ▸ List.mem_cons_self (a := first) (l := later)
    obtain ⟨held, -⟩ := List.mem_filter.mp found
    rw [ends_merge, alone first held] at split
    obtain ⟨-, rfl⟩ := List.cons.inj split
    rw [merge_alone]
    exact held
  · intro held
    exact ⟨placed, [], alone placed held, (merge_alone policy placed).symm⟩

/-- No reverse is added if none is missing. -/
theorem addReverses_of_closed {edges : List PlacedEdge}
    (closed : ∀ pair ∈ edges.map PlacedEdge.ends, pair.1 ≠ pair.2 →
      pair.swap ∈ edges.map PlacedEdge.ends) : addReverses edges = edges := by
  -- A missing reverse would be that of an edge, which is closed under reversal.
  unfold addReverses
  rw [List.filter_eq_nil_iff.mpr, List.map_nil, List.append_nil]
  intro placed held lacking
  simp only [Bool.and_eq_true, Bool.not_eq_true', PlacedEdge.isSelfLoop, beq_eq_false_iff_ne,
    List.any_eq_false, decide_eq_true_eq] at lacking
  obtain ⟨other, found, ends⟩ := List.mem_map.mp (closed _ (List.mem_map_of_mem held) lacking.1)
  exact lacking.2 other found ends

/-- Handing edges in changes no endpoints. -/
theorem map_ends_handedIn (edges : List Edge) : (handedIn edges).map PlacedEdge.ends = edges.map Edge.ends := by
  have ends : PlacedEdge.ends = Edge.ends ∘ PlacedEdge.edge := rfl
  rw [ends, ← List.map_map, map_edge_handedIn]

/-- Nothing is dropped of settled edges. -/
theorem kept_of_settled {edges : List Edge} (settled : Settled options (edges.map Edge.ends)) :
    kept options edges = handedIn edges := by
  rw [← map_ends_handedIn] at settled
  unfold kept
  -- There is no self-loop among them if self-loops are to be dropped.
  split
  · rename_i drops
    refine List.filter_eq_self.mpr fun placed held => ?_
    have proper : placed.edge.src ≠ placed.edge.dst := settled.proper drops _ (List.mem_map_of_mem held)
    simpa using proper
  · rfl

/-- Edges that need no cleaning up stay as they are handed in. -/
theorem processed_of_settled {edges : List Edge} (settled : Settled options (edges.map Edge.ends)) :
    (processed options edges).Perm (handedIn edges) := by
  have stay := kept_of_settled settled
  rw [← map_ends_handedIn] at settled
  have merged : (if options.mergePolicy = .keepAll then handedIn edges
      else mergeParallel options.mergePolicy (handedIn edges)).Perm (handedIn edges) := by
    split
    · exact .refl _
    · exact mergeParallel_perm_of_once _ (settled.once ‹_›)
  unfold processed clean
  rw [stay]
  cases adds : options.addReverses with
  | false => exact merged
  | true =>
    have ends := merged.map PlacedEdge.ends
    simp only [if_true]
    -- Merging changes no endpoints, so no reverse is missing after it.
    rw [addReverses_of_closed fun pair member apart =>
      ends.symm.subset (settled.closed adds pair (ends.subset member) apart)]
    exact merged

/-- Edges that are handed in in order stand in order. -/
theorem handedIn_sorted {transposed : Bool} {sorted : List PlacedEdge}
    (ordered : sorted.Pairwise fun left right => left.precedes transposed right = true) :
    (handedIn (sorted.map PlacedEdge.edge)).Pairwise
      fun left right => left.precedes transposed right = true := by
  have stands : ∀ i (inside : i < (handedIn (sorted.map PlacedEdge.edge)).length) (held : i < sorted.length),
      (handedIn (sorted.map PlacedEdge.edge))[i] = ⟨sorted[i].edge, i⟩ := by
    intro i inside held
    simp [handedIn]
  have length : (handedIn (sorted.map PlacedEdge.edge)).length = sorted.length := by simp [handedIn]
  rw [List.pairwise_iff_getElem]
  intro i j first second before
  have earlier := precedes_iff.mp (List.pairwise_iff_getElem.mp ordered i j (length ▸ first)
    (length ▸ second) before)
  rw [stands i first (length ▸ first), stands j second (length ▸ second)]
  -- Endpoints are as they were, and where these are the same the later edge is in the later position.
  refine precedes_iff.mpr (earlier.imp_right fun ends => ⟨ends.1, ends.2.imp_right fun same => ?_⟩)
  exact ⟨same.1, Nat.le_of_lt before⟩

section Kept

variable {keeps : PlacedEdge → Bool}
  (alike : ∀ left right : PlacedEdge, left.ends = right.ends → keeps left = keeps right)

include alike

/-- As many of some edges are kept for their endpoints as of others with the same endpoints. -/
theorem length_filter_of_ends {edges others : List PlacedEdge}
    (same : (edges.map PlacedEdge.ends).Perm (others.map PlacedEdge.ends)) :
    (edges.filter keeps).length = (others.filter keeps).length := by
  -- Whether an edge is kept can be asked of its endpoints.
  let between : VertexId × VertexId → PlacedEdge := fun ends => ⟨⟨ends.1, ends.2, none, none, none⟩, 0⟩
  have asked : ∀ edges : List PlacedEdge, (edges.filter keeps).length =
      ((edges.map PlacedEdge.ends).filter fun ends => keeps (between ends)).length := by
    intro edges
    rw [List.filter_map, List.length_map]
    exact congrArg List.length (List.filter_congr fun placed _ => alike placed (between placed.ends) rfl)
  rw [asked, asked]
  exact (same.filter _).length_eq

/-- Edges that are handed in as they were listed are listed in the same order again. -/
theorem listed_again {transposed : Bool} {edges again : List PlacedEdge} (distinct : Distinct edges)
    (distinctAgain : Distinct again) (same : again.Perm
      (handedIn ((edges.mergeSort (PlacedEdge.precedes transposed)).map PlacedEdge.edge))) :
    ((again.filter keeps).mergeSort (PlacedEdge.precedes transposed)).map PlacedEdge.edge =
      ((edges.filter keeps).mergeSort (PlacedEdge.precedes transposed)).map PlacedEdge.edge := by
  let sorted := edges.mergeSort (PlacedEdge.precedes transposed)
  have ordered := mergeSort_sorted transposed edges
  -- The listed edges are sorted both where they were listed and where they are handed in.
  have first : (handedIn (sorted.map PlacedEdge.edge)).filter keeps =
      (again.filter keeps).mergeSort (PlacedEdge.precedes transposed) :=
    eq_mergeSort_of_sorted (distinctAgain.filter keeps) (same.symm.filter keeps)
      ((handedIn_sorted ordered).filter keeps)
  have second : sorted.filter keeps = (edges.filter keeps).mergeSort (PlacedEdge.precedes transposed) :=
    eq_mergeSort_of_sorted (distinct.filter keeps) ((List.mergeSort_perm _ _).filter keeps)
      (ordered.filter keeps)
  have listed : ∀ placed : List PlacedEdge, (placed.filter keeps).map PlacedEdge.edge =
      (placed.map PlacedEdge.edge).filter fun edge => keeps ⟨edge, 0⟩ := by
    intro placed
    rw [List.filter_map]
    exact congrArg _ (List.filter_congr fun edge _ => alike edge ⟨edge.edge, 0⟩ rfl)
  rw [← first, ← second, listed, listed, map_edge_handedIn]

end Kept

end Again

end DistGraph.Reference
