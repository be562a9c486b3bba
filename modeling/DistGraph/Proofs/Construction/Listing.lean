import DistGraph.Proofs.Adjacency.Build
import DistGraph.Proofs.Construction.Gathering

/-! The order in which views list the edges that their records stand for. -/

namespace DistGraph

variable {size : Nat} {edges : Fin size → List Edge}

/-- Sorted records stand for edges in order. -/
theorem placed_sorted {sorter : Sorter} (lawful : sorter.Lawful) (transposed : Bool)
    {records : List EdgeRecord} (known : ∀ record ∈ records, record.Genuine edges) :
    ((sorter.records transposed records).map (EdgeRecord.placed edges)).Pairwise
      fun left right => left.precedes transposed right = true := by
  refine List.pairwise_map.mpr (List.Pairwise.imp_of_mem ?_ (lawful.keys_ascend transposed records))
  intro left right leftMember rightMember before
  -- The sort key goes by endpoints first and then by the origin, which is in the order of the positions.
  have positions := (known left ((lawful.records_perm _ _).subset leftMember)).position_le_iff
    (known right ((lawful.records_perm _ _).subset rightMember))
  have parts := EdgeRecord.keyNumber_le_iff.mp before
  simp only [Reference.precedes_iff, EdgeRecord.major_placed, EdgeRecord.minor_placed,
    UInt64.lt_iff_toNat_lt, ← UInt64.toNat_inj, positions]
  omega

/-- Records that stand for edges with different endpoints or positions are sorted into the one order that
these have. -/
theorem EdgeRecord.StandFor.map_sorted_eq {sorter : Sorter} {records : List EdgeRecord}
    {all : List PlacedEdge} (stand : StandFor edges records all) (lawful : sorter.Lawful)
    (distinct : Reference.Distinct all) (transposed : Bool) :
    (sorter.records transposed records).map (placed edges) =
      all.mergeSort (PlacedEdge.precedes transposed) :=
  Reference.eq_mergeSort_of_sorted distinct (((lawful.records_perm _ _).map _).trans stand.perm)
    (placed_sorted lawful transposed stand.genuine)

/-- Records list the edges that they stand for in this order. -/
theorem EdgeRecord.StandFor.map_toEdge_sorted_eq {sorter : Sorter} {records : List EdgeRecord}
    {all : List PlacedEdge} (stand : StandFor edges records all) (lawful : sorter.Lawful)
    (distinct : Reference.Distinct all) (transposed : Bool) :
    (sorter.records transposed records).map toEdge =
      (all.mergeSort (PlacedEdge.precedes transposed)).map PlacedEdge.edge := by
  rw [← stand.map_sorted_eq lawful distinct, List.map_map]
  rfl

namespace View.Built

variable {members : Fin size → Member size} {records : Fin size → List EdgeRecord}
  {partition : Partition size} {transposed : Bool} {budget : Option UInt64}
  {views : Fin size → View size} {all : List PlacedEdge}

/-- The ranks together list all edges in order, if each has the records of the edges that it owns. -/
theorem everything_edges_eq (built : Built members records partition transposed budget views)
    (lawful : ∀ rank, (members rank).sorter.Lawful)
    (stand : ∀ rank, EdgeRecord.StandFor edges (records rank)
      (all.filter ((Placement.byOwner partition transposed).sends rank)))
    (named : ∀ placed ∈ all, ∃ rank : Fin size,
      (Placement.byOwner partition transposed).sends rank placed = true)
    (distinct : Reference.Distinct all) :
    (everything fun rank => (views rank).edges) =
      (all.mergeSort (PlacedEdge.precedes transposed)).map PlacedEdge.edge := by
  -- It is a sorted list of the edges, and there is only one of these.
  have arranged : (everything fun rank => ((members rank).sorter.records transposed
      (records rank)).map (EdgeRecord.placed edges)) =
      all.mergeSort (PlacedEdge.precedes transposed) := by
    apply Reference.eq_mergeSort_of_sorted distinct
    · refine (everything_perm fun rank => ?_).trans (everything_sends_perm named)
      exact (((lawful rank).records_perm _ _).map _).trans (stand rank).perm
    · apply pairwise_everything
      · intro rank
        exact placed_sorted (lawful rank) transposed (stand rank).genuine
      · -- Lower ranks own lesser vertices.
        intro lower upper below left leftMember right rightMember
        obtain ⟨first, firstHeld, rfl⟩ := List.mem_map.mp leftMember
        obtain ⟨second, secondHeld, rfl⟩ := List.mem_map.mp rightMember
        have apart := partition.spanOf_stop_le_start below
        have firstOwned := Span.contains_iff.mp
          (built.own lower first (((lawful lower).records_perm _ _).subset firstHeld))
        have secondOwned := Span.contains_iff.mp
          (built.own upper second (((lawful upper).records_perm _ _).subset secondHeld))
        rw [Reference.precedes_iff]
        left
        rw [EdgeRecord.major_placed, EdgeRecord.major_placed, UInt64.lt_iff_toNat_lt]
        omega
  rw [← arranged, map_everything]
  congr 1
  funext rank
  rw [built.edges_eq lawful, List.map_map]
  rfl

/-- The owner of a vertex lists the edges of the vertex in order, if it has their records. -/
theorem edgesAt_eq (built : Built members records partition transposed budget views)
    (lawful : ∀ rank, (members rank).sorter.Lawful) {rank : Fin size}
    (stand : EdgeRecord.StandFor edges (records rank)
      (all.filter ((Placement.byOwner partition transposed).sends rank)))
    (distinct : Reference.Distinct all) {vertex : VertexId}
    (owned : (partition.spanOf rank).contains vertex = true) :
    (views rank).edgesAt vertex = ((all.filter fun placed => placed.major transposed = vertex).mergeSort
      (PlacedEdge.precedes transposed)).map PlacedEdge.edge := by
  have shown := built.shows lawful rank vertex (by rw [built.range_eq]; exact owned)
  rw [built.transposed_eq] at shown
  have kept : (all.filter ((Placement.byOwner partition transposed).sends rank)).filter
      (fun placed => placed.major transposed = vertex) =
      all.filter fun placed => placed.major transposed = vertex := by
    rw [List.filter_filter]
    apply List.filter_congr
    intro placed _
    -- All edges of the vertex go to its owner.
    by_cases here : placed.major transposed = vertex
    · simp [here, Placement.sends_byOwner_iff.mpr (here.symm ▸ owned)]
    · simp [here]
  -- The row is sorted, and a sorted list of different edges is the sort of any list with the same
  -- members.
  have arranged : (((members rank).sorter.records transposed (records rank)).filter fun record =>
      record.major transposed = vertex).map (EdgeRecord.placed edges) =
      (all.filter fun placed => placed.major transposed = vertex).mergeSort
        (PlacedEdge.precedes transposed) := by
    have whole := (((lawful rank).records_perm transposed _).map (EdgeRecord.placed edges)).trans
      (stand.perm)
    have taken : (((members rank).sorter.records transposed (records rank)).filter fun record =>
        record.major transposed = vertex).map (EdgeRecord.placed edges) =
        (((members rank).sorter.records transposed (records rank)).map
          (EdgeRecord.placed edges)).filter fun placed => placed.major transposed = vertex := by
      rw [List.filter_map]
      rfl
    rw [taken]
    apply Reference.eq_mergeSort_of_sorted
    · intro left leftMember right rightMember
      exact distinct left (List.mem_of_mem_filter leftMember) right
        (List.mem_of_mem_filter rightMember)
    · exact (whole.filter _).trans (List.Perm.of_eq kept)
    · exact (placed_sorted (lawful rank) transposed stand.genuine).filter _
  rw [shown, ← arranged, List.map_map]
  rfl

end View.Built

end DistGraph
