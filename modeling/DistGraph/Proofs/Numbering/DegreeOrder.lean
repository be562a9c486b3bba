import DistGraph.Proofs.Numbering.Assign

/-! Every rank numbers its vertices in the order of the degrees that all ranks count together. -/

namespace DistGraph

/-- Whether an entry comes before another in the order of the new ids. -/
def DegreeShare.Precedes (order : IdOrder) (left right : DegreeShare) : Prop :=
  -- Vertices of the same degree are told apart by their ids.
  match order with
  | .degreeDescending =>
    right.degree < left.degree ∨ left.degree = right.degree ∧ left.vertex < right.vertex
  | .byId => left.vertex < right.vertex

namespace Degrees

/-- The degree that entries tell of a vertex. -/
def degreeOf (entries : List DegreeShare) (vertex : VertexId) : Nat :=
  -- Other vertices do not count.
  total (entries.filter fun entry => entry.vertex = vertex)

variable {sorter : Sorter} {entries merged : List DegreeShare}

/-- The degree of a vertex does not depend on the order of the entries. -/
theorem degreeOf_perm {left right : List DegreeShare} (same : left.Perm right) (vertex : VertexId) :
    degreeOf left vertex = degreeOf right vertex :=
  total_perm (same.filter _)

/-- The total of lists put together is the sum of their totals. -/
theorem total_flatMap {α : Type} (sources : List α) (entries : α → List DegreeShare) :
    total (sources.flatMap entries) = (sources.map fun source => total (entries source)).sum := by
  induction sources with
  | nil => rfl
  | cons source sources ih => rw [List.flatMap_cons, total_append, ih, List.map_cons, List.sum_cons]

/-- Merging leaves every vertex its degree. -/
theorem degreeOf_merge (lawful : sorter.Lawful) (made : merge sorter entries = .ok merged)
    (vertex : VertexId) : degreeOf merged vertex = degreeOf entries vertex := by
  obtain ⟨fits, rfl⟩ := merge_eq_ok_iff.mp made
  have whole := (byVertex_runs lawful entries).whole
  rw [← degreeOf_perm (byVertex_perm lawful entries)]
  unfold degreeOf
  rw [← List.flatMap_singleton' ((byVertex sorter entries).map joined), List.flatMap_map,
    List.filter_flatMap, List.filter_flatMap, total_flatMap, total_flatMap]
  refine congrArg List.sum (List.map_congr_left fun run member => ?_)
  -- All entries of a run are of the vertex of the first one.
  have same : ∀ entry ∈ run.1 :: run.2, entry.vertex = run.1.vertex := by
    intro entry held
    rw [whole run member] at held
    exact UInt64.toNat_inj.mp (of_decide_eq_true (List.mem_filter.mp held).2)
  have sum : (joined run).degree.toNat = total (run.1 :: run.2) :=
    UInt64.toNat_ofNat_of_lt' (fits run member)
  by_cases own : run.1.vertex = vertex
  · rw [List.filter_eq_self.mpr fun entry held => decide_eq_true ((same entry held).trans own),
      List.filter_eq_self.mpr (by simpa [joined] using own)]
    simpa [total] using sum
  · rw [List.filter_eq_nil_iff.mpr fun entry held found =>
        own ((same entry held).symm.trans (of_decide_eq_true found)),
      List.filter_eq_nil_iff.mpr (by simpa [joined] using own)]

/-- An entry tells the degree of its vertex if there is no other one of it. -/
theorem degreeOf_of_mem (once : (entries.map DegreeShare.vertex).Nodup) {entry : DegreeShare}
    (member : entry ∈ entries) : degreeOf entries entry.vertex = entry.degree.toNat := by
  obtain ⟨front, back, rfl⟩ := List.append_of_mem member
  rw [List.map_append, List.map_cons, List.nodup_middle, List.nodup_cons, ← List.map_append] at once
  -- No other entry is of this vertex, so that the sum has a single term.
  have absent : (front ++ back).filter (fun other => other.vertex = entry.vertex) = [] := by
    rw [List.filter_eq_nil_iff]
    intro other held same
    exact once.1 (List.mem_map.mpr ⟨other, held, of_decide_eq_true same⟩)
  rw [List.filter_append, List.append_eq_nil_iff] at absent
  simp [degreeOf, total, absent.1, absent.2]

section Named

variable {size : Nat} {transposed : Bool}

/-- A rank counts the records that have a vertex as their major endpoint. -/
theorem degreeOf_shares (records : List EdgeRecord) (vertices : List VertexId) (vertex : VertexId) :
    degreeOf (shares records vertices transposed) vertex =
      (records.filter fun record => record.major transposed = vertex).length := by
  have listed : total ((vertices.map fun listed => (⟨listed, 0⟩ : DegreeShare)).filter
      fun entry => entry.vertex = vertex) = 0 :=
    Nat.le_zero.mp (total_listed vertices ▸ total_filter_le _ _)
  unfold degreeOf shares
  rw [List.filter_append, total_append, listed, Nat.add_zero]
  induction records with
  | nil => rfl
  | cons record records ih =>
    -- The entry of the minor endpoint adds nothing to any degree.
    have own : total ((ofRecord transposed record).filter fun entry => entry.vertex = vertex) =
        if record.major transposed = vertex then 1 else 0 := by
      by_cases major : record.major transposed = vertex <;>
        by_cases minor : record.minor transposed = vertex <;> simp [ofRecord, total, major, minor]
    rw [List.flatMap_cons, List.filter_append, total_append, ih, own, List.filter_cons]
    by_cases major : record.major transposed = vertex
    · simp [major, Nat.add_comm]
    · simp [major]

end Named

/-- Merged entries put in order come one before the other. -/
theorem arrange_precedes (lawful : sorter.Lawful) (order : IdOrder)
    (made : merge sorter entries = .ok merged) :
    (arrange sorter order merged).Pairwise (DegreeShare.Precedes order) := by
  cases order with
  | degreeDescending =>
    -- No vertex comes twice, so that among equal degrees ids ascend strictly.
    have once : ((sorter.byDegree merged).map DegreeShare.vertex).Nodup :=
      ((lawful.byDegree_perm merged).map _).nodup_iff.mpr (merged_of_merge lawful made).once
    refine (List.pairwise_map.mp once).imp₂ ?_ (lawful.byDegree_sorted merged)
    intro left right different before
    refine (DegreeShare.ranksBefore_iff.mp before).imp_right ?_
    rintro ⟨same, below⟩
    exact ⟨same, UInt64.lt_of_le_of_ne below different⟩
  | byId =>
    obtain ⟨-, rfl⟩ := merge_eq_ok_iff.mp made
    exact List.pairwise_map.mpr ((byVertex_runs lawful entries).rising.imp UInt64.lt_iff_toNat_lt.mpr)

end Degrees

namespace Numbering.Entries

variable {size : Nat} {members : Fin size → Member size} {records : Fin size → List EdgeRecord}
  {vertices : Fin size → List VertexId} {order : IdOrder} {transposed : Bool}
  {named owned : Fin size → List DegreeShare}
  (entries : Entries members records vertices order transposed named owned)
  (lawful : ∀ rank, (members rank).sorter.Lawful)

include entries lawful

/-- Every rank numbers its vertices in order. -/
theorem owned_precedes (rank : Fin size) : (owned rank).Pairwise (DegreeShare.Precedes order) := by
  obtain ⟨merged, made, rfl⟩ := entries.merges
  exact Degrees.arrange_precedes (lawful rank) order (made rank)

/-- The entries of a vertex, which meet on the rank that numbers it, tell its degree over all ranks. -/
theorem degree_eq {rank : Fin size} {entry : DegreeShare} (member : entry ∈ owned rank) :
    entry.degree.toNat = ((everything records).filter fun record =>
      record.major transposed = entry.vertex).length := by
  have once := entries.once lawful rank
  obtain ⟨-, home⟩ := (entries.mem_owned_iff lawful).mp (List.mem_map_of_mem member)
  obtain ⟨merged, made, rfl⟩ := entries.merges
  -- No entry of the vertex goes elsewhere.
  have meets : (Grouping.bound (meetsAt size) (everything named) rank).filter
      (fun other => other.vertex = entry.vertex) =
        (everything named).filter fun other => other.vertex = entry.vertex := by
    rw [Grouping.bound, List.filter_filter]
    refine List.filter_congr fun other _ => ?_
    by_cases same : other.vertex = entry.vertex
    · simp [meetsAt, same, home]
    · simp [same]
  have each : ∀ peer, Degrees.total ((named peer).filter fun other => other.vertex = entry.vertex) =
      ((records peer).filter fun record => record.major transposed = entry.vertex).length := by
    intro peer
    have names := (Degrees.named_eq_ok_iff.mp (entries.names peer)).2
    exact (Degrees.degreeOf_merge (lawful peer) names entry.vertex).trans
      (Degrees.degreeOf_shares _ _ _)
  rw [← Degrees.degreeOf_of_mem once member,
    Degrees.degreeOf_perm (Degrees.arrange_perm (lawful rank) order (merged rank)),
    Degrees.degreeOf_merge (lawful rank) (made rank), Degrees.degreeOf, meets, filter_everything,
    filter_everything]
  exact Degrees.total_everything each

end Numbering.Entries

end DistGraph
