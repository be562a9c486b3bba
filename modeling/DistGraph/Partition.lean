import DistGraph.Search
import DistGraph.Vertex
import DistGraph.Word

/-! A partition gives every rank a consecutive run of the vertex ids. -/

namespace DistGraph

/-- A division of the ids below a vertex count into one run per rank. -/
structure Partition (ranks : Nat) where
  /-- The start of every run, followed by the vertex count. -/
  boundaries : List VertexId
  /-- Every rank has a start, and the vertex count follows. -/
  length_boundaries : boundaries.length = ranks + 1
  /-- The first run starts at zero. -/
  starts_at_zero : boundaries.head? = some 0
  /-- No run ends before it starts. -/
  ordered : boundaries.Pairwise (· ≤ ·)

namespace Partition

variable {ranks : Nat}

/-- The partition with a given number of vertices on every rank. -/
def ofCounts (counts : Vector UInt64 ranks) : Except Defect (Partition ranks) :=
  -- The boundaries are the totals of the counts, which have to fit a word.
  if ranks = 0 then .error .emptyPartition else
    match summed : Word.totals 0 counts.toList with
    | .error defect => .error defect
    | .ok ends => .ok {
        boundaries := 0 :: ends
        length_boundaries := by simp [Word.totals_length summed]
        starts_at_zero := rfl
        ordered := Word.totals_ordered summed }

/-- Where the run of a rank starts when the ids are shared out evenly. -/
def evenStart (vertexCount : UInt64) (ranks rank : Nat) : Except Defect VertexId := do
  -- The ranks before it take a full share each, and the first of them one id more.
  let shares ← Word.exact (rank * (vertexCount.toNat / ranks))
  Word.exact (shares.toNat + min rank (vertexCount.toNat % ranks))

/-- The even starts of all ranks, followed by the vertex count. -/
def evenStarts (vertexCount : UInt64) (ranks : Nat) : Except Defect (List VertexId) :=
  -- The start one past the last rank is where that rank ends.
  (List.range (ranks + 1)).mapM (evenStart vertexCount ranks)

/-- An even start is the number of ids on the ranks before it, and fits a word. -/
theorem evenStart_eq_ok {vertexCount : UInt64} {rank : Nat} (inside : rank ≤ ranks) :
    evenStart vertexCount ranks rank = .ok (UInt64.ofNat
      (rank * (vertexCount.toNat / ranks) + min rank (vertexCount.toNat % ranks))) := by
  -- Full shares and surplus together are at most the vertex count, which is a word.
  have shares : rank * (vertexCount.toNat / ranks) ≤ ranks * (vertexCount.toNat / ranks) :=
    Nat.mul_le_mul_right _ inside
  have whole := Nat.div_add_mod vertexCount.toNat ranks
  have word := vertexCount.toNat_lt_size
  have surplus : min rank (vertexCount.toNat % ranks) ≤ vertexCount.toNat % ranks :=
    Nat.min_le_right _ _
  have first : Word.exact (rank * (vertexCount.toNat / ranks)) =
      .ok (UInt64.ofNat (rank * (vertexCount.toNat / ranks))) := by
    rw [Word.exact_eq_ok_iff, UInt64.toNat_ofNat_of_lt']
    omega
  have read : (UInt64.ofNat (rank * (vertexCount.toNat / ranks))).toNat =
      rank * (vertexCount.toNat / ranks) := by
    rw [UInt64.toNat_ofNat_of_lt']
    omega
  simp only [evenStart, first, ok_bind, read]
  rw [Word.exact_eq_ok_iff, UInt64.toNat_ofNat_of_lt']
  omega

/-- Even starts exist for every vertex count. -/
theorem evenStarts_eq_ok (vertexCount : UInt64) (ranks : Nat) :
    evenStarts vertexCount ranks = .ok ((List.range (ranks + 1)).map fun rank => UInt64.ofNat
      (rank * (vertexCount.toNat / ranks) + min rank (vertexCount.toNat % ranks))) := by
  -- Every listed rank is at most the number of ranks, so none of the starts is refused.
  have each : ∀ rank ∈ List.range (ranks + 1), evenStart vertexCount ranks rank =
      .ok (UInt64.ofNat (rank * (vertexCount.toNat / ranks) + min rank (vertexCount.toNat % ranks))) :=
    fun rank member => evenStart_eq_ok (by simp at member; omega)
  unfold evenStarts
  generalize List.range (ranks + 1) = listed at each
  induction listed with
  | nil => rfl
  | cons rank rest ih =>
    have head := each rank (by simp)
    have tail := ih fun later member => each later (by simp [member])
    simp [List.mapM_cons, head, tail]

/-- Even starts do not decrease. -/
theorem evenStarts_ordered (vertexCount : UInt64) (ranks : Nat) :
    ((List.range (ranks + 1)).map fun rank => UInt64.ofNat
      (rank * (vertexCount.toNat / ranks) + min rank (vertexCount.toNat % ranks))).Pairwise
        (· ≤ ·) := by
  -- Both the full shares and the surplus grow with the rank, and neither sum wraps.
  rw [List.pairwise_map]
  refine List.Pairwise.imp_of_mem ?_ List.pairwise_lt_range
  intro lower upper lowerIn upperIn below
  simp only [List.mem_range] at lowerIn upperIn
  have shares : lower * (vertexCount.toNat / ranks) ≤ upper * (vertexCount.toNat / ranks) :=
    Nat.mul_le_mul_right _ (by omega)
  have most : upper * (vertexCount.toNat / ranks) ≤ ranks * (vertexCount.toNat / ranks) :=
    Nat.mul_le_mul_right _ (by omega)
  have whole := Nat.div_add_mod vertexCount.toNat ranks
  have word := vertexCount.toNat_lt_size
  rw [UInt64.le_iff_toNat_le, UInt64.toNat_ofNat_of_lt', UInt64.toNat_ofNat_of_lt']
  · omega
  · omega
  · omega

/-- The partition into runs of nearly equal length, the longer ones first. -/
def even (vertexCount : UInt64) (ranks : Nat) : Except Defect (Partition ranks) :=
  -- The first ranks take one id more until none is left over.
  if ranks = 0 then .error .emptyPartition else
    match started : evenStarts vertexCount ranks with
    | .error defect => .error defect
    | .ok starts => .ok {
        boundaries := starts
        length_boundaries := by
          rw [evenStarts_eq_ok, Except.ok.injEq] at started; simp [← started]
        starts_at_zero := by
          rw [evenStarts_eq_ok, Except.ok.injEq] at started
          simp [← started, List.range_succ_eq_map]
        ordered := by
          rw [evenStarts_eq_ok, Except.ok.injEq] at started
          exact started ▸ evenStarts_ordered vertexCount ranks }

/-- The number of vertices over all ranks. -/
def vertexCount (partition : Partition ranks) : UInt64 :=
  -- The last boundary ends the last run.
  have length := partition.length_boundaries
  partition.boundaries[ranks]

/-- The run of ids a rank owns. -/
def spanOf (partition : Partition ranks) (rank : Fin ranks) : Span :=
  -- A run ends where the next one starts.
  have length := partition.length_boundaries
  ⟨partition.boundaries[rank.val], partition.boundaries[rank.val + 1]⟩

/-- The number of ids a rank owns. -/
def countOf (partition : Partition ranks) (rank : Fin ranks) : UInt64 :=
  -- A run never ends before it starts, so the difference does not wrap.
  (partition.spanOf rank).stop - (partition.spanOf rank).start

/-- The runs of all ranks, in rank order. -/
def spans (partition : Partition ranks) : Vector Span ranks :=
  -- One run per rank.
  Vector.ofFn partition.spanOf

/-- The numbers of ids on all ranks, in rank order. -/
def counts (partition : Partition ranks) : Vector UInt64 ranks :=
  -- One count per rank.
  Vector.ofFn partition.countOf

/-- The number of ids on the fullest rank. -/
def largestCount (partition : Partition ranks) : UInt64 :=
  -- A partition without ids has nothing on every rank.
  partition.counts.foldl max 0

/-- How many boundaries lie at or below an id. -/
def boundariesUpTo (partition : Partition ranks) (vertex : VertexId) : Nat :=
  -- Boundaries are ordered, so those at or below an id come before all others.
  Search.partitionPoint (ranks + 1) fun i =>
    match partition.boundaries[i]? with
    | some boundary => boundary ≤ vertex
    | none => false

/-- An id below the vertex count lies before the last boundary. -/
theorem boundariesUpTo_le {partition : Partition ranks} {vertex : VertexId}
    (inside : vertex < partition.vertexCount) : partition.boundariesUpTo vertex ≤ ranks := by
  -- The last boundary is the vertex count, which is not at or below the id.
  apply Search.partitionPoint_lt
  have length := partition.length_boundaries
  rw [List.getElem?_eq_getElem (by omega)]
  simp only [decide_eq_false_iff_not, UInt64.not_le]
  exact inside

/-- The rank that owns an id, if any does. -/
def owner? (partition : Partition ranks) (vertex : VertexId) : Option (Fin ranks) :=
  -- Of ranks that share a start all but the last are empty, so the last start at or below the id counts.
  if inside : vertex < partition.vertexCount then
    some ⟨partition.boundariesUpTo vertex - 1, by
      have bound := boundariesUpTo_le inside
      have occupied : ranks ≠ 0 := by
        rintro rfl
        have start := partition.starts_at_zero
        rw [List.head?_eq_getElem?, List.getElem?_eq_getElem (by simp [partition.length_boundaries]),
          Option.some.injEq] at start
        simp [vertexCount, start] at inside
      omega⟩
  else none

/-- Whether a rank owns an id. -/
def owns (partition : Partition ranks) (vertex : VertexId) (rank : Fin ranks) : Bool :=
  -- A rank owns the ids of its run and no others.
  (partition.spanOf rank).contains vertex

/-- The owner of an id together with the place of the id in the owner's run. -/
def position? (partition : Partition ranks) (vertex : VertexId) : Option (Fin ranks × UInt64) :=
  -- The owner's run starts at or before the id, so the difference does not wrap.
  (partition.owner? vertex).map fun rank => (rank, vertex - (partition.spanOf rank).start)

/-- The rank with a given index, refused when the partition has no such rank. -/
def rank (_ : Partition ranks) (index : Nat) : Except Defect (Fin ranks) :=
  -- Ranks are counted from zero.
  if inside : index < ranks then .ok ⟨index, inside⟩ else .error .outOfRange

end Partition

end DistGraph
