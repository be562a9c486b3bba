import DistGraph.Proofs.Adjacency.Build

/-! The rows of built views hold the records of their vertices in the order of the targets. -/

namespace DistGraph

variable {size : Nat}

/-- Stored edges of one vertex are told apart by the edges that they stand for. -/
theorem HalfEdge.toEdge_injective (transposed : Bool) (major : VertexId) :
    Function.Injective (toEdge transposed major) := by
  intro left right same
  obtain ⟨target, weight, id, kind⟩ := left
  obtain ⟨target', weight', id', kind'⟩ := right
  -- The major endpoint is shared, and the edge keeps everything else that is stored.
  cases transposed <;> simpa [toEdge] using same

/-- Among records of one vertex the sort key goes by the other endpoint first. -/
theorem EdgeRecord.minor_le_of_keyNumber_le {transposed : Bool} {left right : EdgeRecord}
    (before : left.keyNumber transposed ≤ right.keyNumber transposed)
    (same : left.major transposed = right.major transposed) :
    left.minor transposed ≤ right.minor transposed := by
  have parts := keyNumber_le_iff.mp before
  -- With equal major endpoints the key starts with the minor ones.
  rw [same] at parts
  rw [UInt64.le_iff_toNat_le]
  omega

namespace View

/-- The row of an own vertex holds what is stored of its records. -/
theorem Shows.halfEdges_eq {view : View size} {records : List EdgeRecord} (shows : view.Shows records)
    {vertex : VertexId} (owned : view.range.contains vertex = true) :
    view.halfEdges vertex = (records.filter fun record =>
      record.major view.transposed = vertex).map (HalfEdge.ofRecord view.transposed) := by
  -- A view is known by the edges that its rows stand for, which tell stored edges apart.
  refine List.map_injective_iff.mpr (HalfEdge.toEdge_injective view.transposed vertex) ?_
  refine (shows vertex owned).trans ?_
  rw [List.map_map]
  refine List.map_congr_left fun record member => ?_
  have major : record.major view.transposed = vertex :=
    of_decide_eq_true (List.mem_filter.mp member).2
  rw [Function.comp_apply, ← major, HalfEdge.toEdge_ofRecord]

/-- Vertices of other ranks have no row. -/
theorem halfEdges_of_stray {view : View size} {vertex : VertexId}
    (stray : ¬ view.range.contains vertex = true) : view.halfEdges vertex = [] :=
  if_neg stray

namespace Built

variable {members : Fin size → Member size} {records : Fin size → List EdgeRecord}
  {partition : Partition size} {transposed : Bool} {budget : Option UInt64}
  {views : Fin size → View size}
  (built : Built members records partition transposed budget views)
  (lawful : ∀ rank, (members rank).sorter.Lawful)

include built lawful

/-- The row of any vertex holds what is stored of its records, of which only its owner has some. -/
theorem halfEdges_eq (rank : Fin size) (vertex : VertexId) :
    (views rank).halfEdges vertex =
      (((members rank).sorter.records transposed (records rank)).filter fun record =>
        record.major transposed = vertex).map (HalfEdge.ofRecord transposed) := by
  -- A rank that does not own the vertex has no row and no records for it.
  by_cases owned : (views rank).range.contains vertex = true
  · have row := (built.shows lawful rank).halfEdges_eq owned
    rw [built.transposed_eq] at row
    exact row
  · rw [halfEdges_of_stray owned, eq_comm, List.map_eq_nil_iff, List.filter_eq_nil_iff]
    intro record member same
    apply owned
    rw [built.range_eq, ← of_decide_eq_true same]
    exact built.own rank record (((lawful rank).records_perm _ _).subset member)

/-- A vertex has as many edges as it has records. -/
theorem degree_eq (rank : Fin size) (vertex : VertexId) : (views rank).degree vertex =
    ((records rank).filter fun record => record.major transposed = vertex).length := by
  unfold degree
  rw [built.halfEdges_eq lawful, List.length_map]
  exact (((lawful rank).records_perm _ _).filter _).length_eq

/-- The targets of a row are the other endpoints of the records of its vertex. -/
theorem targets_perm (rank : Fin size) (vertex : VertexId) :
    (((views rank).halfEdges vertex).map HalfEdge.target).Perm
      (((records rank).filter fun record => record.major transposed = vertex).map
        fun record => record.minor transposed) := by
  rw [built.halfEdges_eq lawful, List.map_map]
  exact (((lawful rank).records_perm _ _).filter _).map _

/-- The targets of a row ascend. -/
theorem targets_ascend (rank : Fin size) (vertex : VertexId) :
    ((views rank).halfEdges vertex).Pairwise fun left right => left.target ≤ right.target := by
  -- Among the records of one vertex the sorted order goes by the other endpoint.
  rw [built.halfEdges_eq lawful, List.pairwise_map]
  refine List.Pairwise.imp_of_mem ?_ (((lawful rank).keys_ascend transposed (records rank)).filter _)
  intro left right leftHeld rightHeld before
  apply EdgeRecord.minor_le_of_keyNumber_le before
  rw [of_decide_eq_true (List.mem_filter.mp leftHeld).2, of_decide_eq_true (List.mem_filter.mp rightHeld).2]

end Built

end View

end DistGraph
