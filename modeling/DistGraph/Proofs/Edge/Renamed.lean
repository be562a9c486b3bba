import DistGraph.Proofs.Edge.Origin

/-! Edges and their records on other ids, and the order that the other ids bring about. -/

namespace DistGraph

/-- The edge between other endpoints. -/
def Edge.renamed (name : VertexId → VertexId) (edge : Edge) : Edge :=
  -- Attributes stay as they are.
  { edge with src := name edge.src, dst := name edge.dst }

/-- The record of an edge between other endpoints. -/
def EdgeRecord.renamed (name : VertexId → VertexId) (record : EdgeRecord) : EdgeRecord :=
  -- The place of origin stays as it is.
  { record with src := name record.src, dst := name record.dst }

namespace PlacedEdge

/-- The edge between other endpoints, in the same position. -/
def renamed (name : VertexId → VertexId) (placed : PlacedEdge) : PlacedEdge :=
  -- Nothing is moved.
  { placed with edge := placed.edge.renamed name }

/-- Whether an edge comes before another by the new id of its minor endpoint and by position. -/
def precedesUnder (new : VertexId → VertexId) (transposed : Bool) (left right : PlacedEdge) : Bool :=
  -- Edges are compared that share their major endpoint.
  new (left.minor transposed) < new (right.minor transposed) ||
    (new (left.minor transposed) == new (right.minor transposed) && left.position ≤ right.position)

/-- The major endpoint is renamed in its place. -/
@[simp] theorem major_renamed (name : VertexId → VertexId) (transposed : Bool) (placed : PlacedEdge) :
    (placed.renamed name).major transposed = name (placed.major transposed) := by
  cases transposed <;> rfl

/-- The minor endpoint is renamed in its place. -/
@[simp] theorem minor_renamed (name : VertexId → VertexId) (transposed : Bool) (placed : PlacedEdge) :
    (placed.renamed name).minor transposed = name (placed.minor transposed) := by
  cases transposed <;> rfl

/-- Between edges of one vertex, the new ids of the other endpoints and the positions decide. -/
theorem precedes_renamed {new : VertexId → VertexId} {transposed : Bool} {left right : PlacedEdge}
    (same : left.major transposed = right.major transposed) :
    (left.renamed new).precedes transposed (right.renamed new) =
      left.precedesUnder new transposed right := by
  simp only [precedes, precedesUnder, major_renamed, minor_renamed, same, UInt64.lt_irrefl,
    decide_false, beq_self_eq_true, Bool.true_and, Bool.false_or]
  rfl

end PlacedEdge

namespace Reference

/-- The edges of a vertex, by the new ids of the other endpoints and by position. -/
def edgesOf (options : Options) (new : VertexId → VertexId) (edges : List Edge) (vertex : VertexId) :
    List Edge :=
  -- The vertex is the major endpoint of all of them.
  (((processed options edges).filter fun placed => placed.major options.transposed = vertex).mergeSort
    (PlacedEdge.precedesUnder new options.transposed)).map PlacedEdge.edge

/-- Whether the old ids of all endpoints can be told from their new ids. -/
def Restores (old new : VertexId → VertexId) (edges : List PlacedEdge) : Prop :=
  ∀ placed ∈ edges, old (new placed.edge.src) = placed.edge.src ∧
    old (new placed.edge.dst) = placed.edge.dst

variable {old new : VertexId → VertexId} {edges : List PlacedEdge}

namespace Restores

/-- An edge is back once its old ids are. -/
theorem edge (restores : Restores old new edges) {placed : PlacedEdge} (member : placed ∈ edges) :
    (placed.renamed new).edge.renamed old = placed.edge := by
  obtain ⟨src, dst⟩ := restores placed member
  unfold PlacedEdge.renamed Edge.renamed
  simp only [src, dst]

/-- The major endpoint of an edge is back once its old id is. -/
theorem major (restores : Restores old new edges) {placed : PlacedEdge} (member : placed ∈ edges)
    (transposed : Bool) : old (new (placed.major transposed)) = placed.major transposed := by
  obtain ⟨src, dst⟩ := restores placed member
  -- The major endpoint is one of the two, whichever the orientation.
  cases transposed with
  | false => exact src
  | true => exact dst

/-- Edges that are different stay different. -/
theorem distinct (restores : Restores old new edges) (distinct : Distinct edges) :
    Distinct (edges.map (PlacedEdge.renamed new)) := by
  intro left leftMember right rightMember ends position
  obtain ⟨first, firstHeld, rfl⟩ := List.mem_map.mp leftMember
  obtain ⟨second, secondHeld, rfl⟩ := List.mem_map.mp rightMember
  obtain ⟨firstSrc, firstDst⟩ := restores first firstHeld
  obtain ⟨secondSrc, secondDst⟩ := restores second secondHeld
  obtain ⟨src, dst⟩ := Prod.mk.inj ends
  -- Edges with the same new endpoints had the same old ones.
  have sameSrc : first.edge.src = second.edge.src := by
    rw [← firstSrc, ← secondSrc]
    exact congrArg old src
  have sameDst : first.edge.dst = second.edge.dst := by
    rw [← firstDst, ← secondDst]
    exact congrArg old dst
  rw [distinct first firstHeld second secondHeld (Prod.ext sameSrc sameDst) position]

/-- Edges that are there once are there once on new ids. -/
theorem nodup (restores : Restores old new edges) (once : edges.Nodup) :
    (edges.map (PlacedEdge.renamed new)).Nodup := by
  refine once.map_on fun left leftHeld right rightHeld same => ?_
  -- An edge in its position is told from what it is renamed to.
  have edge : left.edge = right.edge := by
    rw [← restores.edge leftHeld, ← restores.edge rightHeld, same]
  have position : (left.renamed new).position = (right.renamed new).position := by rw [same]
  cases left
  cases right
  cases edge
  cases position
  rfl

/-- All edges are back once their old ids are. -/
theorem map_edge (restores : Restores old new edges) :
    ((edges.map (PlacedEdge.renamed new)).map PlacedEdge.edge).map (Edge.renamed old) =
      edges.map PlacedEdge.edge := by
  rw [List.map_map, List.map_map]
  -- Each edge is restored by itself.
  apply List.map_congr_left
  intro placed member
  exact restores.edge member

/-- The sorted edges of a new id are those of its old id, in the order of the new ids. -/
theorem mergeSort_eq (restores : Restores old new edges) (transposed : Bool) {vertex label : VertexId}
    (here : new label = vertex) (back : old vertex = label) :
    ((((edges.map (PlacedEdge.renamed new)).filter fun placed =>
        placed.major transposed = vertex).mergeSort (PlacedEdge.precedes transposed)).map
          PlacedEdge.edge).map (Edge.renamed old) =
      ((edges.filter fun placed => placed.major transposed = label).mergeSort
        (PlacedEdge.precedesUnder new transposed)).map PlacedEdge.edge := by
  have taken : (edges.map (PlacedEdge.renamed new)).filter (fun placed =>
      placed.major transposed = vertex) =
      (edges.filter fun placed => placed.major transposed = label).map (PlacedEdge.renamed new) := by
    rw [List.filter_map]
    congr 1
    apply List.filter_congr
    intro placed member
    simp only [Function.comp_apply, PlacedEdge.major_renamed]
    congr 1
    apply propext
    constructor
    · intro same
      rw [← restores.major member transposed, same, back]
    · intro same
      rw [same, here]
  -- All edges that are compared share their major endpoint.
  have ordered : ∀ left ∈ edges.filter fun placed => placed.major transposed = label,
      ∀ right ∈ edges.filter fun placed => placed.major transposed = label,
      left.precedesUnder new transposed right =
        (left.renamed new).precedes transposed (right.renamed new) := by
    intro left leftMember right rightMember
    have leftMajor := of_decide_eq_true (List.mem_filter.mp leftMember).2
    have rightMajor := of_decide_eq_true (List.mem_filter.mp rightMember).2
    exact (PlacedEdge.precedes_renamed (leftMajor.trans rightMajor.symm)).symm
  rw [taken, ← List.map_mergeSort ordered]
  apply map_edge
  intro placed member
  exact restores placed (List.mem_of_mem_filter ((List.mergeSort_perm _ _).subset member))

end Restores

end Reference

namespace EdgeRecord

variable {size : Nat} {edges : Fin size → List Edge}

/-- The major endpoint of a record is renamed in its place. -/
@[simp] theorem major_renamed (name : VertexId → VertexId) (transposed : Bool) (record : EdgeRecord) :
    (record.renamed name).major transposed = name (record.major transposed) := by
  cases transposed <;> rfl

/-- Renaming a record renames the edge that it stands for. -/
theorem placed_renamed (name : VertexId → VertexId) (record : EdgeRecord) :
    (record.renamed name).placed edges = (record.placed edges).renamed name := rfl

/-- A record comes from the same place whatever its endpoints are called. -/
theorem Genuine.renamed {record : EdgeRecord} (known : record.Genuine edges)
    (name : VertexId → VertexId) : (record.renamed name).Genuine edges :=
  known.congr rfl rfl

end EdgeRecord

end DistGraph
