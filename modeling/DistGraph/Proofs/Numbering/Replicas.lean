import DistGraph.Proofs.Numbering.Inquiry
import Mathlib.Data.List.Sort

/-! Every rank gathers the numbering of all ranks, which then stands for the parts that these keep. -/

namespace DistGraph

variable {size ranks : Nat}

namespace Numbering

/-- Whether a numbering of all vertices is the whole of what ranks keep. -/
structure IsWhole (numberings : Fin size → Numbering size) (whole : Numbering 1) : Prop
    extends Finds numberings whole.newId? whole.oldId? where
  /-- It has the old and new ids of all ranks, in rank order. -/
  pairs : whole.pairs = everything fun rank => (numberings rank).pairs
  /-- It counts the same vertices. -/
  count : ∀ rank, whole.vertexCount = (numberings rank).vertexCount
  /-- It answers for an old id like the rank that is asked for it. -/
  newId : ∀ (asker : Fin size) old, ∃ owner, newRoute asker old = .ok owner.val ∧
    whole.newId old = (numberings owner).newId old
  /-- It answers for a new id like the rank that is asked for it. -/
  oldId : ∀ (asker : Fin size) new, ∃ owner, oldRoute numberings asker new = .ok owner.val ∧
    whole.oldId new = (numberings owner).oldId new

namespace IsWhole

variable {numberings : Fin size → Numbering size} {whole : Numbering 1}
  (isWhole : IsWhole numberings whole) {old new : VertexId}

include isWhole

/-- The whole knows the new ids that any rank has assigned. -/
theorem newId_eq_ok_iff : whole.newId old = .ok new ↔ Assigns numberings old new := by
  rw [← newId?_eq_some_iff, isWhole.newIds]

/-- The whole knows the old ids that any rank has assigned. -/
theorem oldId_eq_ok_iff : whole.oldId new = .ok old ↔ Assigns numberings old new := by
  rw [← oldId?_eq_some_iff, isWhole.oldIds]

/-- An old id without a new one is refused. -/
theorem newId_eq_error (unknown : ¬∃ new, Assigns numberings old new) :
    whole.newId old = .error (.unknownId old) := by
  have missing : whole.newId? old = none :=
    Option.eq_none_iff_forall_ne_some.mpr fun new found => unknown ⟨new, (isWhole.newIds old new).mp found⟩
  rw [Numbering.newId, missing]

/-- There is an old id for every new one. -/
theorem exists_assigns (someone : Fin size) (below : new < whole.vertexCount) :
    ∃ old, Assigns numberings old new := by
  rw [isWhole.count someone, ← isWhole.all someone, Option.isSome_iff_exists] at below
  obtain ⟨old, found⟩ := below
  exact ⟨old, (isWhole.oldIds old new).mp found⟩

/-- What is not a new id is refused. -/
theorem oldId_eq_error (someone : Fin size) (outside : ¬new < whole.vertexCount) :
    whole.oldId new = .error (.unknownId new) := by
  rw [isWhole.count someone, ← isWhole.all someone, Option.not_isSome_iff_eq_none] at outside
  rw [Numbering.oldId, outside]

end IsWhole

/-- What is known of an old id is all that is answered for it. -/
theorem newId_congr {numbering : Numbering size} {other : Numbering ranks} {old : VertexId}
    (same : numbering.newId? old = other.newId? old) : numbering.newId old = other.newId old := by
  rw [newId, same, newId]

/-- What is known of a new id is all that is answered for it. -/
theorem oldId_congr {numbering : Numbering size} {other : Numbering ranks} {new : VertexId}
    (same : numbering.oldId? new = other.oldId? new) : numbering.oldId new = other.oldId new := by
  rw [oldId, same, oldId]

section Labelled

variable {labels : Fin size → List VertexId} {partition : Partition size}
  (labelled : Labels labels partition) {single : Partition 1}
  (count : single.vertexCount = partition.vertexCount)

include labelled

/-- A rank that has all new ids to itself can number the labels of all ranks. -/
theorem Labels.whole (count : single.vertexCount = partition.vertexCount) :
    Labels (fun _ : Fin 1 => everything labels) single := by
  refine ⟨fun _ => labelled.nodup_everything, fun rank old _ => ?_, fun rank => ?_⟩
  · -- Alone, it is home to every id.
    obtain ⟨owner, home⟩ := exists_home rank old
    rwa [Subsingleton.elim owner rank] at home
  · rw [Subsingleton.elim rank 0, single.spanOf_single, count, labelled.vertexCount_eq]
    exact Nat.zero_add _

/-- It keeps the old and new ids of all ranks, in rank order. -/
theorem Labels.pairs_whole : (part (fun _ : Fin 1 => everything labels) single 0).pairs =
    everything fun rank => (part labels partition rank).pairs := by
  have start : (part (fun _ : Fin 1 => everything labels) single 0).range.start = 0 := by
    rw [range, part, single.spanOf_single]
  unfold pairs
  simp only [start, UInt64.zero_add]
  change (everything labels).zipIdx.map (fun entry => (entry.1, UInt64.ofNat entry.2)) = _
  rw [zipIdx_everything, map_everything]
  refine congrArg everything (funext fun rank => ?_)
  -- The labels before the rank's own are as many as the new ids before its run.
  have first : (partition.spanOf rank).start = UInt64.ofNat (before labels rank) := by
    rw [← labelled.boundary_eq rank (Nat.le_of_lt rank.isLt)]
    exact UInt64.ofNat_toNat.symm
  rw [Nat.zero_add, List.zipIdx_eq_map_add, List.map_map]
  refine List.map_congr_left fun entry _ => ?_
  rw [part, range, first, ← UInt64.ofNat_add]
  rfl

include count

/-- It knows the new ids that all ranks know together. -/
theorem Labels.newId?_whole (old : VertexId) :
    (part (fun _ : Fin 1 => everything labels) single 0).newId? old = newOf? labels partition old := by
  obtain ⟨owner, home⟩ := exists_home (0 : Fin 1) old
  rw [Subsingleton.elim owner 0] at home
  rw [(labelled.whole count).newId?_eq home, newOf?, everything_one, labelled.pairs_whole, newOf?]

/-- It knows the old ids that all ranks know together. -/
theorem Labels.oldId?_whole (new : VertexId) :
    (part (fun _ : Fin 1 => everything labels) single 0).oldId? new = oldOf? labels partition new := by
  have goes : oldRoute (part (fun _ : Fin 1 => everything labels) single) 0 new = .ok (0 : Fin 1).val :=
    congrArg Except.ok (Nat.lt_one_iff.mp (Fin.isLt _))
  rw [(labelled.whole count).oldId?_eq goes, oldOf?, everything_one, labelled.pairs_whole, oldOf?]

/-- It is the whole of what the ranks keep. -/
theorem Labels.isWhole : IsWhole (part labels partition)
    (part (fun _ : Fin 1 => everything labels) single 0) := by
  -- All labels on one rank are numbered as they are on their own ranks, in the order of the ranks.
  have finds : Finds (part labels partition) (part (fun _ : Fin 1 => everything labels) single 0).newId?
      (part (fun _ : Fin 1 => everything labels) single 0).oldId? := by
    rw [funext (labelled.newId?_whole count), funext (labelled.oldId?_whole count)]
    exact labelled.finds
  refine ⟨finds, labelled.pairs_whole, fun _ => count, fun asker old => ?_, fun asker new => ?_⟩
  · obtain ⟨owner, home⟩ := exists_home asker old
    refine ⟨owner, home, newId_congr ?_⟩
    rw [labelled.newId?_whole count, labelled.newId?_eq home]
  · have goes : oldRoute (part labels partition) asker new =
        .ok ((partition.owner? new).getD asker).val := rfl
    refine ⟨(partition.owner? new).getD asker, goes, oldId_congr ?_⟩
    rw [labelled.oldId?_whole count, labelled.oldId?_eq goes]

end Labelled

section Unchanged

variable {partition : Partition size} {single : Partition 1}
  (count : single.vertexCount = partition.vertexCount)

include count

end Unchanged

section Gather

variable {members : Fin size → Member size} (free : ∀ rank, (members rank).memory = none)

include free

end Gather

/-- Gathers the whole numbering, and then what was gathered some more times. -/
def gatherOver (self : Member size) (numbering : Numbering ranks) :
    (again : Nat) → Program size Failure (Numbering 1)
  -- What was gathered is gathered like any other part.
  | 0 => gatherAll self numbering
  | again + 1 => do
    let whole ← gatherOver self numbering again
    gatherAll self whole

section Kept

variable {members : Fin size → Member size} (someone : Fin size) {single : Partition 1}

include someone

variable (free : ∀ rank, (members rank).memory = none)

include free

end Kept

end Numbering

end DistGraph
