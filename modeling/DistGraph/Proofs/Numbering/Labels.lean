import Mathlib.Data.List.Nodup
import DistGraph.Numbering.Assign
import DistGraph.Proofs.Everything
import DistGraph.Proofs.Partition

/-! Old and new ids determine each other once every rank has numbered its own labels. -/

namespace DistGraph

/-- In a list with different keys, looking a key up finds what stands next to it. -/
theorem lookup_of_mem {α β : Type} [BEq α] [LawfulBEq α] {pairs : List (α × β)} {key : α} {value : β}
    (once : (pairs.map Prod.fst).Nodup) (member : (key, value) ∈ pairs) :
    pairs.lookup key = some value := by
  induction pairs with
  | nil => simp at member
  | cons pair pairs ih =>
    obtain ⟨fresh, onceRest⟩ := List.nodup_cons.mp once
    rcases List.mem_cons.mp member with here | later
    · rw [← here, List.lookup_cons_self]
    · -- The key stands further back, so the first one is another.
      have other : key ≠ pair.1 := by
        rintro rfl
        exact fresh (List.mem_map.mpr ⟨_, later, rfl⟩)
      rw [List.lookup_cons, beq_false_of_ne other]
      exact ih onceRest later

namespace Numbering

variable {size : Nat}

/-- The new id that the ranks together have for an old one. -/
def newOf (numberings : Fin size → Numbering size) (old : VertexId) : VertexId :=
  -- Ids that are not known stand for none.
  ((everything fun rank => (numberings rank).pairs).lookup old).getD 0

/-- The old id that the ranks together have for a new one. -/
def oldOf (numberings : Fin size → Numbering size) (new : VertexId) : VertexId :=
  -- Ids that are not known stand for none.
  (((everything fun rank => (numberings rank).pairs).map Prod.swap).lookup new).getD 0

/-- The numbering of which every rank keeps the part that numbers its own labels. -/
def part (labels : Fin size → List VertexId) (partition : Partition size) (rank : Fin size) :
    Numbering size :=
  ⟨partition, rank, some (labels rank)⟩

/-- Whether labels are what the ranks number under a partition of the new ids. -/
structure Labels (labels : Fin size → List VertexId) (partition : Partition size) : Prop where
  /-- No rank has a label twice. -/
  once : ∀ rank, (labels rank).Nodup
  /-- Every label is numbered by the rank that is asked for it. -/
  home : ∀ rank, ∀ old ∈ labels rank, assigner size old = .ok rank.val
  /-- There are as many new ids as labels. -/
  fill : ∀ rank, (partition.spanOf rank).start.toNat + (labels rank).length =
    (partition.spanOf rank).stop.toNat

namespace Labels

variable {labels : Fin size → List VertexId} {partition : Partition size}

/-- A rank keeps its labels in the order in which it numbered them. -/
@[simp] theorem map_fst_pairs (labels : Fin size → List VertexId) (partition : Partition size)
    (rank : Fin size) : (part labels partition rank).pairs.map Prod.fst = labels rank := by
  rw [part, pairs, List.map_map]
  exact List.zipIdx_map_fst 0 (labels rank)

/-- The new id of a label is its place in the run of the rank. -/
theorem toNat_new (labelled : Labels labels partition) {rank : Fin size} {i : Nat}
    (inside : i < (labels rank).length) :
    ((partition.spanOf rank).start + UInt64.ofNat i).toNat = (partition.spanOf rank).start.toNat + i := by
  -- The run of a rank ends within the id space, so that counting along it does not wrap.
  have fill := labelled.fill rank
  have word := (partition.spanOf rank).stop.toNat_lt
  have place : (UInt64.ofNat i).toNat = i := UInt64.toNat_ofNat_of_lt' (by simp only [UInt64.size]; omega)
  rw [UInt64.toNat_add, place]
  omega

/-- A rank keeps each label next to the id at its place in the run. -/
theorem mem_pairs_iff {rank : Fin size} {old new : VertexId} :
    (old, new) ∈ (part labels partition rank).pairs ↔ ∃ (i : Nat) (inside : i < (labels rank).length),
      (labels rank)[i] = old ∧ new = (partition.spanOf rank).start + UInt64.ofNat i := by
  rw [part, pairs, List.mem_map]
  -- Labels are numbered by their positions.
  constructor
  · intro ⟨⟨label, i⟩, member, same⟩
    obtain ⟨inside, found⟩ := List.mem_zipIdx' member
    obtain ⟨rfl, rfl⟩ := Prod.mk.inj same
    exact ⟨i, inside, found.symm, rfl⟩
  · rintro ⟨i, inside, rfl, rfl⟩
    exact ⟨((labels rank)[i], i), List.mk_mem_zipIdx_iff_getElem?.mpr (List.getElem?_eq_getElem inside), rfl⟩

/-- The new ids of a rank lie in its run. -/
theorem contains_of_mem_pairs (labelled : Labels labels partition) {rank : Fin size}
    {old new : VertexId} (member : (old, new) ∈ (part labels partition rank).pairs) :
    (partition.spanOf rank).contains new = true := by
  -- The run has as many ids as there are labels.
  obtain ⟨i, inside, -, rfl⟩ := mem_pairs_iff.mp member
  have fill := labelled.fill rank
  rw [Span.contains_iff, labelled.toNat_new inside]
  omega

/-- Every id in the run of a rank is the new id of a label. -/
theorem exists_mem_pairs (labelled : Labels labels partition) {rank : Fin size} {new : VertexId}
    (owned : (partition.spanOf rank).contains new = true) :
    ∃ old, (old, new) ∈ (part labels partition rank).pairs := by
  have fill := labelled.fill rank
  obtain ⟨lower, upper⟩ := Span.contains_iff.mp owned
  -- The distance from the start of the run is a position of a label.
  have inside : new.toNat - (partition.spanOf rank).start.toNat < (labels rank).length := by omega
  refine ⟨_, mem_pairs_iff.mpr ⟨_, inside, rfl, ?_⟩⟩
  rw [← UInt64.toNat_inj, labelled.toNat_new inside]
  omega

/-- No old id is numbered twice. -/
theorem olds_nodup (labelled : Labels labels partition) :
    ((everything fun rank => (part labels partition rank).pairs).map Prod.fst).Nodup := by
  rw [map_everything]
  apply pairwise_everything
  · intro rank
    rw [map_fst_pairs]
    exact labelled.once rank
  · -- A label that two ranks had would have two homes.
    intro lower upper below left leftMember right rightMember same
    rw [map_fst_pairs] at leftMember rightMember
    have first := labelled.home lower left leftMember
    rw [same, labelled.home upper right rightMember, Except.ok.injEq] at first
    exact Nat.ne_of_gt below first

/-- No label is numbered twice. -/
theorem nodup_everything (labelled : Labels labels partition) : (everything labels).Nodup := by
  have olds := labelled.olds_nodup
  rw [map_everything] at olds
  simpa only [map_fst_pairs] using olds

/-- The run of a rank starts after the labels of all ranks before it. -/
theorem boundary_eq (labelled : Labels labels partition) (index : Nat) (inside : index ≤ size) :
    partition.boundary index inside = before labels index := by
  induction index with
  | zero => rw [Partition.boundary_zero, before_zero]
  | succ index ih =>
    -- It ends after its own labels, where the next one starts.
    have fill : partition.boundary index (by omega) + (labels ⟨index, inside⟩).length =
        partition.boundary (index + 1) inside := labelled.fill ⟨index, inside⟩
    rw [← fill, ih (by omega)]
    exact (before_add_length labels ⟨index, inside⟩).symm

/-- There are as many new ids as labels. -/
theorem vertexCount_eq (labelled : Labels labels partition) :
    partition.vertexCount.toNat = (everything labels).length := by
  rw [Partition.vertexCount_toNat, labelled.boundary_eq, before_all]

/-- No new id is given out twice. -/
theorem news_nodup (labelled : Labels labels partition) :
    ((everything fun rank => (part labels partition rank).pairs).map Prod.snd).Nodup := by
  rw [map_everything]
  apply pairwise_everything
  · intro rank
    -- Within a rank new ids count up from the start of its run, which ends within the id space.
    have run : (part labels partition rank).pairs.map Prod.snd = (List.range' 0 (labels rank).length).map
        fun i => (partition.spanOf rank).start + UInt64.ofNat i := by
      rw [part, pairs, List.map_map, ← List.zipIdx_map_snd 0 (labels rank), List.map_map]
      rfl
    rw [run]
    refine List.Nodup.map_on ?_ List.nodup_range'
    intro i member j other same
    have places := congrArg UInt64.toNat same
    rw [List.mem_range'_1] at member other
    rw [labelled.toNat_new (by omega), labelled.toNat_new (by omega)] at places
    omega
  · -- The runs of two ranks do not overlap.
    intro lower upper below left leftMember right rightMember same
    obtain ⟨⟨first, _⟩, firstHeld, rfl⟩ := List.mem_map.mp leftMember
    obtain ⟨⟨second, _⟩, secondHeld, rfl⟩ := List.mem_map.mp rightMember
    have apart := partition.spanOf_stop_le_start below
    have leftOwned := Span.contains_iff.mp (labelled.contains_of_mem_pairs firstHeld)
    have rightOwned := Span.contains_iff.mp (labelled.contains_of_mem_pairs secondHeld)
    dsimp only at same
    rw [same] at leftOwned
    omega

/-- Turned around, the pairs of all ranks have every new id once in front. -/
theorem swapped_nodup (labelled : Labels labels partition) :
    (((everything fun rank => (part labels partition rank).pairs).map Prod.swap).map Prod.fst).Nodup := by
  rw [List.map_map]
  exact labelled.news_nodup

variable {old new : VertexId}

/-- The new id of an old one is the one that it is kept with. -/
theorem newOf_eq (labelled : Labels labels partition)
    (member : (old, new) ∈ everything fun rank => (part labels partition rank).pairs) :
    newOf (part labels partition) old = new := by
  rw [newOf, lookup_of_mem labelled.olds_nodup member]
  rfl

/-- The old id of a new one is the one that it is kept with. -/
theorem oldOf_eq (labelled : Labels labels partition)
    (member : (old, new) ∈ everything fun rank => (part labels partition rank).pairs) :
    oldOf (part labels partition) new = old := by
  rw [oldOf, lookup_of_mem labelled.swapped_nodup (List.mem_map_of_mem (f := Prod.swap) member)]
  rfl

/-- A label is kept with its new id. -/
theorem mem_pairs_newOf (labelled : Labels labels partition) {rank : Fin size}
    (member : old ∈ labels rank) :
    (old, newOf (part labels partition) old) ∈ (part labels partition rank).pairs := by
  obtain ⟨i, inside, here⟩ := List.getElem_of_mem member
  -- Old ids are kept once, so that what the lookup finds is this pair.
  have pair : (old, (partition.spanOf rank).start + UInt64.ofNat i) ∈
      (part labels partition rank).pairs := mem_pairs_iff.mpr ⟨i, inside, here, rfl⟩
  rw [labelled.newOf_eq (mem_everything.mpr ⟨rank, pair⟩)]
  exact pair

/-- Labels can be told from their new ids. -/
theorem oldOf_newOf (labelled : Labels labels partition) (member : old ∈ everything labels) :
    oldOf (part labels partition) (newOf (part labels partition) old) = old := by
  obtain ⟨rank, held⟩ := mem_everything.mp member
  exact labelled.oldOf_eq (mem_everything.mpr ⟨rank, labelled.mem_pairs_newOf held⟩)

end Labels

end Numbering

end DistGraph
