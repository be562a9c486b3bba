import DistGraph.Adjacency.Segment
import DistGraph.Proofs.Everything
import DistGraph.Proofs.Sorted

/-! Rows of the graph with every edge turned around, and how turning twice gives them back. -/

namespace DistGraph

/-- The row of a vertex once every edge is turned around, where vertices are gone through in order. -/
def turnedRow (vertices : List VertexId) (row : VertexId → List HalfEdge) (vertex : VertexId) :
    List HalfEdge :=
  -- Edges that lead to the vertex now lead from it back to where they came from.
  vertices.flatMap fun source =>
    ((row source).filter fun stored => stored.target = vertex).map fun stored =>
      { stored with target := source }

variable {vertices : List VertexId} {row : VertexId → List HalfEdge} {vertex : VertexId}

/-- The edges that lead back to a vertex are those that led from it. -/
theorem filter_turnedRow (once : vertices.Nodup) {source : VertexId} (member : source ∈ vertices) :
    (turnedRow vertices row vertex).filter (fun stored => stored.target = source) =
      ((row source).filter fun stored => stored.target = vertex).map fun stored =>
        { stored with target := source } := by
  unfold turnedRow
  rw [List.filter_flatMap, flatMap_only once member]
  · rw [List.filter_eq_self]
    intro stored held
    obtain ⟨original, -, rfl⟩ := List.mem_map.mp held
    simp
  · -- Edges that lead back elsewhere are left out.
    intro other _ different
    rw [List.filter_eq_nil_iff]
    intro stored held
    obtain ⟨original, -, rfl⟩ := List.mem_map.mp held
    simpa using different

/-- Turning every edge around twice gives back a row in the order of its targets. -/
theorem turnedRow_turnedRow (ascending : vertices.Pairwise (· < ·)) (member : vertex ∈ vertices)
    (sorted : (row vertex).Pairwise fun left right => left.target ≤ right.target)
    (listed : ∀ stored ∈ row vertex, stored.target ∈ vertices) :
    turnedRow vertices (turnedRow vertices row) vertex = row vertex := by
  have once : vertices.Nodup := ascending.imp fun less same => UInt64.ne_of_lt less same
  have back : turnedRow vertices (turnedRow vertices row) vertex =
      vertices.flatMap fun target => (row vertex).filter fun stored => stored.target = target := by
    refine List.flatMap_congr fun target _ => ?_
    rw [filter_turnedRow once member, List.map_map]
    refine (List.map_congr_left fun stored held => ?_).trans (List.map_id _)
    have same : stored.target = target := of_decide_eq_true (List.mem_filter.mp held).2
    simp [← same]
  rw [back]
  -- Going through the targets in order puts the row together again.
  have numbers : (vertices.map UInt64.toNat).Pairwise (· < ·) :=
    List.pairwise_map.mpr (ascending.imp UInt64.lt_iff_toNat_lt.mp)
  have gathered := @flatMap_filter_key _ (fun stored : HalfEdge => stored.target.toNat) _ _ numbers
    (sorted.imp UInt64.le_iff_toNat_le.mp)
    fun stored held => List.mem_map_of_mem (listed stored held)
  rw [List.flatMap_map] at gathered
  simpa only [UInt64.toNat_inj] using gathered

end DistGraph
