import Mathlib.Data.List.Dedup
import DistGraph.Proofs.Edge.Origin

/-! Turning around all edges that are handed in turns around all edges of the graph. -/

namespace DistGraph

namespace PlacedEdge

/-- Turning an edge around swaps its endpoints. -/
@[simp] theorem ends_reversed (placed : PlacedEdge) : placed.reversed.ends = placed.ends.swap := rfl

/-- Self-loops stay self-loops when they are turned around. -/
@[simp] theorem isSelfLoop_reversed (placed : PlacedEdge) : placed.reversed.isSelfLoop = placed.isSelfLoop := by
  unfold isSelfLoop
  exact Bool.beq_comm

/-- Reverses of parallel edges are merged into the reverse. -/
theorem merge_reversed (policy : MergePolicy) (first : PlacedEdge) (later : List PlacedEdge) :
    first.reversed.merge policy (later.map reversed) = (first.merge policy later).reversed := by
  unfold merge
  split
  · rfl
  · -- Weights are the same in either direction.
    rw [← List.map_cons, groupWeight, List.filterMap_map]
    rfl

/-- A reverse comes before another in one orientation as its edge does in the other. -/
theorem precedes_reversed (transposed : Bool) (left right : PlacedEdge) :
    left.reversed.precedes (!transposed) right.reversed = left.precedes transposed right := by
  cases transposed <;> rfl

end PlacedEdge

namespace Reference

open PlacedEdge (reversed)

/-- Turned around, edges stay in the positions in which they were handed in. -/
theorem handedIn_reversed (edges : List Edge) :
    handedIn (edges.map Edge.reversed) = (handedIn edges).map reversed := by
  unfold handedIn
  rw [List.zipIdx_map, List.map_map, List.map_map]
  rfl

/-- Edges are parallel exactly if their reverses are. -/
theorem filter_ends_reversed (edges : List PlacedEdge) (ends : VertexId × VertexId) :
    (edges.map reversed).filter (fun placed => placed.ends = ends.swap) =
      (edges.filter fun placed => placed.ends = ends).map reversed := by
  -- Swapping endpoints tells all pairs apart that were different.
  rw [List.filter_map]
  refine congrArg _ (List.filter_congr fun placed _ => decide_eq_decide.mpr ?_)
  rw [PlacedEdge.ends_reversed]
  exact Prod.swap_injective.eq_iff

/-- Merging turned edges turns the merged ones around. -/
theorem mergeParallel_reversed (policy : MergePolicy) (edges : List PlacedEdge) :
    mergeParallel policy (edges.map reversed) = (mergeParallel policy edges).map reversed := by
  have ends : (edges.map reversed).map PlacedEdge.ends = (edges.map PlacedEdge.ends).map Prod.swap := by
    rw [List.map_map, List.map_map]
    rfl
  unfold mergeParallel
  rw [ends, List.dedup_map_of_injective Prod.swap_injective, List.filterMap_map, List.map_filterMap]
  refine List.filterMap_congr fun ends _ => ?_
  -- The reverses of parallel edges are merged in the same order.
  rw [Function.comp_apply, filter_ends_reversed]
  cases edges.filter fun placed => placed.ends = ends with
  | nil => rfl
  | cons first later => exact congrArg some (PlacedEdge.merge_reversed policy first later)

/-- Adding reverses to turned edges turns the completed ones around. -/
theorem addReverses_reversed (edges : List PlacedEdge) :
    addReverses (edges.map reversed) = (addReverses edges).map reversed := by
  unfold addReverses
  rw [List.map_append, List.filter_map]
  refine congrArg _ (congrArg _ (congrArg _ (List.filter_congr fun placed _ => ?_)))
  -- The reverse of a reverse is missing if that of the edge is.
  have found : ((edges.map reversed).any fun other => other.ends = placed.reversed.reversed.ends) =
      edges.any fun other => other.ends = placed.reversed.ends := by
    rw [List.any_map]
    refine congrArg edges.any (funext fun other => decide_eq_decide.mpr ?_)
    rw [PlacedEdge.ends_reversed, PlacedEdge.ends_reversed]
    exact Prod.swap_injective.eq_iff
  rw [Function.comp_apply, PlacedEdge.isSelfLoop_reversed, found]

/-- The same edges are kept of turned ones. -/
theorem kept_reversed (options : Options) (edges : List Edge) :
    kept options (edges.map Edge.reversed) = (kept options edges).map reversed := by
  -- Only self-loops are dropped, and they are their own reverses.
  unfold kept
  rw [handedIn_reversed]
  split
  · rw [List.filter_map]
    refine congrArg _ (List.filter_congr fun placed _ => ?_)
    rw [Function.comp_apply, PlacedEdge.isSelfLoop_reversed]
  · rfl

/-- The graph of the reverses of all edges has the reverses of the edges of the graph. -/
theorem processed_reversed (options : Options) (edges : List Edge) :
    processed options (edges.map Edge.reversed) = (processed options edges).map reversed := by
  unfold processed clean
  rw [kept_reversed]
  -- Each step of the clean-up turns around with its edges, whichever of them are taken.
  cases options.addReverses with
  | false =>
    by_cases keeps : options.mergePolicy = .keepAll
    · simp [keeps]
    · simp [keeps, mergeParallel_reversed]
  | true =>
    by_cases keeps : options.mergePolicy = .keepAll
    · simp [keeps, addReverses_reversed]
    · simp [keeps, mergeParallel_reversed, addReverses_reversed]

/-- Edges that are different have different reverses. -/
theorem Distinct.reversed {edges : List PlacedEdge} (distinct : Distinct edges) :
    Distinct (edges.map reversed) := by
  intro left leftMember right rightMember ends position
  -- Swapped endpoints agree only if the endpoints do.
  obtain ⟨first, firstHeld, rfl⟩ := List.mem_map.mp leftMember
  obtain ⟨second, secondHeld, rfl⟩ := List.mem_map.mp rightMember
  exact congrArg _ (distinct first firstHeld second secondHeld (Prod.swap_injective ends) position)

end Reference

namespace EdgeRecord

/-- The records of turned edges are the turned records. -/
theorem ofEdges_reversed (rank : Nat) (edges : List Edge) :
    ofEdges rank (edges.map Edge.reversed) = (ofEdges rank edges).map reversed := by
  unfold ofEdges
  rw [List.zipIdx_map, List.map_map, List.map_map]
  rfl

/-- A record of a self-loop stays one when it is turned around. -/
@[simp] theorem isSelfLoop_reversed (record : EdgeRecord) : record.reversed.isSelfLoop = record.isSelfLoop := by
  unfold isSelfLoop
  exact Bool.beq_comm

/-- In the other orientation a turned record has the same major endpoint. -/
@[simp] theorem major_reversed (transposed : Bool) (record : EdgeRecord) :
    record.reversed.major (!transposed) = record.major transposed := by
  cases transposed <;> rfl

/-- In the other orientation a turned record has the same minor endpoint. -/
@[simp] theorem minor_reversed (transposed : Bool) (record : EdgeRecord) :
    record.reversed.minor (!transposed) = record.minor transposed := by
  cases transposed <;> rfl

end EdgeRecord

end DistGraph
