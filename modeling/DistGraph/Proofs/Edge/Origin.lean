import DistGraph.Cleanup
import DistGraph.Proofs.Edge.Record
import DistGraph.Proofs.Everything
import DistGraph.Proofs.Reference
import DistGraph.Proofs.Sorter

/-! Records told as edges in the positions in which they were handed in. -/

namespace DistGraph.PlacedEdge

/-- Edges take in the weights of later ones as records have theirs combined. -/
theorem takeIn_eq_combine (policy : MergePolicy) : takeIn policy = policy.combine := by
  funext weight later
  cases policy <;> rfl

/-- Parallel edges come to the weight that all weights among them are combined to. -/
theorem groupWeight_eq_combineAll (policy : MergePolicy) (edges : List PlacedEdge) :
    groupWeight policy edges =
      policy.combineAll (edges.filterMap fun placed => placed.edge.weight) := by
  unfold groupWeight
  rw [takeIn_eq_combine]
  cases edges.filterMap fun placed => placed.edge.weight <;> rfl

end DistGraph.PlacedEdge

namespace DistGraph.EdgeRecord

variable {size : Nat} (edges : Fin size → List Edge)

/-- The edge of a record in a position that is told from its place of origin. -/
def placedAt (position : UInt32 → UInt64 → Nat) (record : EdgeRecord) : PlacedEdge :=
  -- Attributes count as far as they are present.
  ⟨record.toEdge, position record.originRank record.originSeq⟩

/-- The edge of a record in its position among the edges of all ranks. -/
def placed (record : EdgeRecord) : PlacedEdge :=
  -- The edges of lower ranks come first.
  ⟨record.toEdge, before edges record.originRank.toNat + record.originSeq.toNat⟩

/-- Whether the place of origin of a record is one at which an edge was handed in. -/
def Genuine (record : EdgeRecord) : Prop :=
  ∃ rank : Fin size, record.originRank.toNat = rank.val ∧
    record.originSeq.toNat < (edges rank).length

variable {edges}

/-- Places of origin are in the order of positions. -/
theorem Genuine.position_lt {left right : EdgeRecord} (leftKnown : left.Genuine edges)
    (less : left.originNumber < right.originNumber) :
    (left.placed edges).position < (right.placed edges).position := by
  obtain ⟨leftRank, leftHere, leftInside⟩ := leftKnown
  have := left.originSeq.toNat_lt
  have := right.originSeq.toNat_lt
  unfold originNumber at less
  simp only [placed, leftHere]
  -- The edges of a lower rank all come before those of a higher one.
  rcases Nat.lt_or_ge left.originRank.toNat right.originRank.toNat with lower | notLower
  · have apart := before_add_length_le edges (leftHere ▸ lower)
    omega
  · have same : right.originRank.toNat = leftRank.val := by omega
    rw [same]
    omega

/-- Records with the same position have the same place of origin. -/
theorem Genuine.position_inj {left right : EdgeRecord} (leftKnown : left.Genuine edges)
    (rightKnown : right.Genuine edges) :
    (left.placed edges).position = (right.placed edges).position ↔
      left.originNumber = right.originNumber := by
  constructor
  · intro same
    rcases Nat.lt_trichotomy left.originNumber right.originNumber with less | equal | greater
    · have := leftKnown.position_lt less
      omega
    · exact equal
    · have := rightKnown.position_lt greater
      omega
  · intro same
    have := left.originSeq.toNat_lt
    have := right.originSeq.toNat_lt
    unfold originNumber at same
    -- The two parts of an origin are digits of its number.
    have ranks : left.originRank.toNat = right.originRank.toNat := by omega
    have places : left.originSeq.toNat = right.originSeq.toNat := by omega
    simp only [placed, ranks, places]

/-- The order of places of origin is that of positions. -/
theorem Genuine.position_le_iff {left right : EdgeRecord} (leftKnown : left.Genuine edges)
    (rightKnown : right.Genuine edges) :
    (left.placed edges).position ≤ (right.placed edges).position ↔
      left.originNumber ≤ right.originNumber := by
  -- Positions tell places of origin apart and keep their strict order.
  have same := leftKnown.position_inj rightKnown
  have less : left.originNumber < right.originNumber → _ := leftKnown.position_lt
  have greater : right.originNumber < left.originNumber → _ := rightKnown.position_lt
  omega

/-- What a record tells about its place of origin is all that counts. -/
theorem Genuine.congr {left right : EdgeRecord} (known : left.Genuine edges)
    (rank : right.originRank = left.originRank) (seq : right.originSeq = left.originSeq) :
    right.Genuine edges := by
  unfold Genuine
  rw [rank, seq]
  exact known

/-- The records of the edges that a rank is given come from where they are handed in. -/
theorem ofEdges_genuine (ranks : size ≤ UInt32.size) (rank : Fin size)
    (short : (edges rank).length < UInt64.size) :
    ∀ record ∈ ofEdges rank (edges rank), record.Genuine edges := by
  intro record member
  -- The number in the list is below its length, and both parts of the origin hold theirs.
  obtain ⟨⟨edge, seq⟩, held, rfl⟩ := List.mem_map.mp member
  have inside := (List.mem_zipIdx' held).1
  refine ⟨rank, ?_, ?_⟩
  · exact UInt32.toNat_ofNat_of_lt' (by omega)
  · simp only [ofEdge]
    rw [UInt64.toNat_ofNat_of_lt' (by omega)]
    exact inside

/-- The records of all ranks stand for all edges in their positions. -/
theorem everything_ofEdges (ranks : size ≤ UInt32.size)
    (short : ∀ rank, (edges rank).length < UInt64.size) :
    (everything fun rank : Fin size => (ofEdges rank (edges rank)).map (placed edges)) =
      Reference.handedIn (everything edges) := by
  -- Rank by rank, as the edges of a rank are numbered from where those of the ranks before it end.
  unfold Reference.handedIn
  rw [zipIdx_everything, map_everything]
  congr 1
  funext rank
  apply List.ext_getElem
  · simp [ofEdges]
  · intro index inside _
    simp only [ofEdges, List.length_map, List.length_zipIdx] at inside
    have := short rank
    simp only [ofEdges, List.getElem_map, List.getElem_zipIdx, placed, toEdge_ofEdge]
    simp only [ofEdge, PlacedEdge.mk.injEq, true_and]
    rw [UInt32.toNat_ofNat_of_lt' (by omega), UInt64.toNat_ofNat_of_lt' (by omega)]
    omega

/-- The records of edges stand for these edges. -/
@[simp] theorem map_toEdge_ofEdges (rank : Nat) (edges : List Edge) :
    (ofEdges rank edges).map toEdge = edges := by
  simp [ofEdges, Function.comp_def]

/-- Records of one rank come in the order of their origins, whatever else their edges are ordered by. -/
theorem ofEdges_pairwise {related : Edge → Edge → Prop} (rank : Nat) {edges : List Edge}
    (short : edges.length ≤ UInt64.size) (sorted : edges.Pairwise related) :
    (ofEdges rank edges).Pairwise fun left right =>
      related left.toEdge right.toEdge ∧ left.originNumber < right.originNumber := by
  rw [List.pairwise_iff_getElem] at sorted ⊢
  intro i j first second before
  simp only [ofEdges, List.length_map, List.length_zipIdx] at first second
  simp only [ofEdges, List.getElem_map, List.getElem_zipIdx, toEdge_ofEdge, Nat.zero_add]
  refine ⟨sorted i j first second before, ?_⟩
  -- Positions are small enough to be told apart by a word.
  simp only [originNumber, ofEdge]
  rw [UInt64.toNat_ofNat_of_lt' (by omega), UInt64.toNat_ofNat_of_lt' (by omega)]
  omega

/-- The edge of a record has the endpoints of the record. -/
@[simp] theorem ends_placed (record : EdgeRecord) : (record.placed edges).ends = (record.src, record.dst) := rfl

/-- The edge of a record has its major endpoint. -/
@[simp] theorem major_placed (record : EdgeRecord) (transposed : Bool) :
    (record.placed edges).major transposed = record.major transposed := rfl

/-- The edge of a record has its minor endpoint. -/
@[simp] theorem minor_placed (record : EdgeRecord) (transposed : Bool) :
    (record.placed edges).minor transposed = record.minor transposed := rfl

/-- Parallel records are merged like their edges, whatever positions are told from their places of origin. -/
theorem placedAt_merge (position : UInt32 → UInt64 → Nat) (policy : MergePolicy) (first : EdgeRecord)
    (later : List EdgeRecord) : (policy.merge first later).placedAt position =
      (first.placedAt position).merge policy (later.map (placedAt position)) := by
  -- Only the weight is merged, which the reference adds up from the edges and the record from their
  -- flags.
  unfold MergePolicy.merge PlacedEdge.merge
  split
  · rfl
  · simp only [placedAt, toEdge_withWeight, originRank_withWeight, originSeq_withWeight,
      PlacedEdge.groupWeight_eq_combineAll, List.filterMap_cons, List.filterMap_map]
    rfl

/-- Parallel records are merged like their edges in the positions that these were handed in. -/
theorem placed_merge (policy : MergePolicy) (first : EdgeRecord) (later : List EdgeRecord) :
    (policy.merge first later).placed edges =
      (first.placed edges).merge policy (later.map (placed edges)) :=
  placedAt_merge (fun rank seq => before edges rank.toNat + seq.toNat) policy first later

/-- A record that stands for parallel ones comes from where the first of them does. -/
theorem Genuine.merge {first : EdgeRecord} (known : first.Genuine edges) (policy : MergePolicy)
    (later : List EdgeRecord) : (policy.merge first later).Genuine edges := by
  -- Merging may replace the weight but never the place of origin.
  unfold MergePolicy.merge
  split
  · exact known
  · exact known.congr (originRank_withWeight _ _) (originSeq_withWeight _ _)

/-- A record that stands for parallel ones has the endpoints of the first of them. -/
theorem ends_merge (policy : MergePolicy) (first : EdgeRecord) (later : List EdgeRecord) :
    (policy.merge first later).src = first.src ∧ (policy.merge first later).dst = first.dst := by
  -- Merging may replace the weight but never an endpoint.
  unfold MergePolicy.merge withWeight
  split
  · exact ⟨rfl, rfl⟩
  · split <;> exact ⟨rfl, rfl⟩

end DistGraph.EdgeRecord
