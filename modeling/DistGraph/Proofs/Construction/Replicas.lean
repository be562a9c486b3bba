import DistGraph.Proofs.Cluster.Rounds
import DistGraph.Proofs.Construction.Inquiry
import DistGraph.Proofs.Numbering.Replicas

/-! Ranks that have numbered a graph together can all gather its whole numbering, which knows every vertex
without an exchange and tells all ranks the same as before in one. -/

namespace DistGraph.Construction

open DistGraph.Numbering (Assigns Changed IsWhole askNewIds askOldIds)

variable {size : Nat}

namespace Source

/-- How the ranks come to the whole numbering, which they may gather again. -/
def replicate (source : Source size) (crew : Crew size) (again : Nat) (rank : Fin size) :
    Program size Failure (Numbering 1) := do
  -- Every rank numbers its own vertices at first.
  let numbering ← source.number crew rank
  Numbering.gatherOver (crew.members rank) numbering again

/-- Whether a numbering knows all vertices by itself, and nothing else. -/
structure Known (source : Source size) (numberings : Fin size → Numbering size) (whole : Numbering 1) :
    Prop where
  /-- It has the new id of every vertex. -/
  vertex : ∀ old, source.hasVertex whole.vertexCount old = true →
    ∃ new, whole.newId old = .ok new ∧ Assigns numberings old new
  /-- It refuses all other old ids. -/
  stranger : ∀ old, source.hasVertex whole.vertexCount old = false →
    whole.newId old = .error (.unknownId old)
  /-- It has the old id of every new one. -/
  inside : ∀ new, new < whole.vertexCount →
    ∃ old, whole.oldId new = .ok old ∧ Assigns numberings old new
  /-- It refuses all other new ids. -/
  outside : ∀ new, ¬new < whole.vertexCount → whole.oldId new = .error (.unknownId new)

/-- The whole of what ranks keep of a numbering of the vertices knows all of these. -/
theorem Keeps.known {source : Source size} {numberings : Fin size → Numbering size} {whole : Numbering 1}
    (keeps : source.Keeps numberings) (isWhole : IsWhole numberings whole) (someone : Fin size) :
    source.Known numberings whole := by
  have vertices := keeps.vertices someone
  rw [← isWhole.count someone] at vertices
  -- The whole answers for all that is assigned, which are the vertices.
  refine ⟨fun old vertex => ?_, fun old stranger => ?_, fun new inside => ?_, fun new outside => ?_⟩
  · obtain ⟨new, pair⟩ := (vertices old).mpr vertex
    exact ⟨new, isWhole.newId_eq_ok_iff.mpr pair, pair⟩
  · exact isWhole.newId_eq_error fun known =>
      Bool.false_ne_true (stranger.symm.trans ((vertices old).mp known))
  · obtain ⟨old, pair⟩ := isWhole.exists_assigns someone inside
    exact ⟨old, isWhole.oldId_eq_ok_iff.mpr pair, pair⟩
  · exact isWhole.oldId_eq_error someone outside

end Source

end DistGraph.Construction
