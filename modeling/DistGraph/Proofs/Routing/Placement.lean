import DistGraph.Proofs.Edge.Origin
import DistGraph.Proofs.Partition
import DistGraph.Proofs.Routing.Grouping
import DistGraph.Routing.Placement

/-! Which records have a rank to go to, and which ones meet there. -/

namespace DistGraph

variable {size : Nat}

/-- As soon as there is a rank, every vertex has one. -/
theorem exists_home (someone : Fin size) (vertex : VertexId) :
    ∃ rank : Fin size, Failure.ofDefect (homeRank vertex size) = .ok rank.val := by
  -- The remainder by the number of ranks is a rank.
  have occupied : size ≠ 0 := Nat.ne_of_gt someone.pos
  refine ⟨⟨(mixBits vertex).toNat % size, Nat.mod_lt _ someone.pos⟩, ?_⟩
  rw [homeRank, if_neg occupied]
  rfl

/-- What any rank holds shows that there is a rank. -/
theorem exists_home_of_mem {α : Type} {held : Fin size → List α} {item : α}
    (member : item ∈ everything held) (vertex : VertexId) :
    ∃ rank : Fin size, Failure.ofDefect (homeRank vertex size) = .ok rank.val := by
  obtain ⟨someone, -⟩ := mem_everything.mp member
  exact exists_home someone vertex

namespace Placement

/-- As soon as there is a rank, every edge and its reverse have one to meet on. -/
theorem exists_destination_byPair (someone : Fin size) (record : EdgeRecord) :
    ∃ rank : Fin size, byPair.destination size record = .ok rank.val := by
  -- The remainder by the number of ranks is a rank.
  have occupied : size ≠ 0 := Nat.ne_of_gt someone.pos
  let lesser := if record.src ≤ record.dst then record.src else record.dst
  refine ⟨⟨(mixBits (lesser ^^^ 0x5bd1e995)).toNat % size, Nat.mod_lt _ someone.pos⟩, ?_⟩
  rw [destination, pairOwner, if_neg occupied]
  rfl

/-- As soon as there is a rank, every major endpoint has one. -/
theorem exists_destination_byHash (someone : Fin size) (transposed : Bool) (record : EdgeRecord) :
    ∃ rank : Fin size, (byHash transposed).destination size record = .ok rank.val :=
  exists_home someone _

/-- Records go to the rank in whose run their major endpoint lies. -/
theorem destination_byOwner_iff {partition : Partition size} {transposed : Bool}
    {record : EdgeRecord} {rank : Fin size} :
    (byOwner partition transposed).destination size record = .ok rank.val ↔
      (partition.spanOf rank).contains (record.major transposed) = true := by
  rw [← Partition.owner?_eq_some_iff]
  dsimp only [destination]
  -- Without an owner the record has no destination, and lies in no run.
  cases partition.owner? (record.major transposed) with
  | none => simp
  | some owner => simp [Fin.ext_iff]

/-- What goes to the owners of its major endpoints reaches them. -/
theorem contains_of_bound (partition : Partition size) (transposed : Bool) (records : List EdgeRecord)
    (rank : Fin size) :
    ∀ record ∈ Grouping.bound ((byOwner partition transposed).destination size) records rank,
      (partition.spanOf rank).contains (record.major transposed) = true :=
  fun _ member => destination_byOwner_iff.mp (of_decide_eq_true (List.mem_filter.mp member).2)

/-- Below the vertex count there is a rank for every record. -/
theorem exists_destination_byOwner {partition : Partition size} {transposed : Bool}
    {record : EdgeRecord} (inside : record.major transposed < partition.vertexCount) :
    ∃ rank : Fin size, (byOwner partition transposed).destination size record = .ok rank.val := by
  obtain ⟨rank, owns⟩ := Option.isSome_iff_exists.mp (Partition.owner?_isSome_iff.mpr inside)
  exact ⟨rank, destination_byOwner_iff.mpr (Partition.owner?_eq_some_iff.mp owns)⟩

/-- Parallel records meet. -/
theorem destination_congr (placement : Placement) (ranks : Nat) (left right : EdgeRecord)
    (src : left.src = right.src) (dst : left.dst = right.dst) :
    placement.destination ranks left = placement.destination ranks right := by
  cases placement <;> simp only [destination, EdgeRecord.major, pairOwner, src, dst]

/-- A record and its reverse meet if they are placed by their pair of endpoints. -/
theorem destination_byPair_reversed (ranks : Nat) (record : EdgeRecord) :
    byPair.destination ranks record.reversed = byPair.destination ranks record := by
  -- Either way the lesser of the two endpoints decides.
  have lesser : (if record.dst ≤ record.src then record.dst else record.src) =
      if record.src ≤ record.dst then record.src else record.dst := by
    split
    · rename_i below
      split
      · rename_i above
        exact UInt64.le_antisymm below above
      · rfl
    · rename_i above
      rw [if_pos (UInt64.le_of_lt (UInt64.not_le.mp above))]
  unfold destination pairOwner EdgeRecord.reversed
  simp only [lesser]

/-- Whether an edge goes to a rank. -/
def sends (placement : Placement) (rank : Fin size) (placed : PlacedEdge) : Bool :=
  -- Only the endpoints of an edge decide where it goes.
  placement.destination size (.ofEdge placed.edge 0 0) = .ok rank.val

variable {placement : Placement} {rank : Fin size}

/-- Edges with the same endpoints are sent to the same rank. -/
theorem sends_congr {left right : PlacedEdge} (ends : left.ends = right.ends) :
    placement.sends rank left = placement.sends rank right := by
  obtain ⟨src, dst⟩ := Prod.mk.inj ends
  unfold sends
  rw [destination_congr placement size (.ofEdge left.edge 0 0) (.ofEdge right.edge 0 0) src dst]

/-- Placed by its pair, an edge goes where its reverse goes. -/
theorem sends_byPair_reversed (placed : PlacedEdge) :
    byPair.sends rank placed.reversed = byPair.sends rank placed := by
  unfold sends
  exact congrArg (fun goes => decide (goes = Except.ok rank.val))
    (destination_byPair_reversed size (.ofEdge placed.edge 0 0))

/-- Placed by its owner, an edge goes where its major endpoint lives. -/
theorem sends_byOwner_iff {partition : Partition size} {transposed : Bool} {placed : PlacedEdge} :
    (byOwner partition transposed).sends rank placed = true ↔
      (partition.spanOf rank).contains (placed.major transposed) = true := by
  unfold sends
  rw [decide_eq_true_eq, destination_byOwner_iff]
  rfl

/-- A record goes where its edge does. -/
theorem sends_placed (edges : Fin size → List Edge) (record : EdgeRecord) :
    placement.sends rank (record.placed edges) = decide (placement.destination size record = .ok rank.val) := by
  unfold sends
  rw [destination_congr placement size (.ofEdge (record.placed edges).edge 0 0) record rfl rfl]

end Placement

end DistGraph
