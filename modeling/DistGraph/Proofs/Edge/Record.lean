import DistGraph.Edge.Record

/-! Records and the edges that they stand for. -/

namespace DistGraph.EdgeRecord

/-- Setting the presence bit of the weight leaves the other bits alone. -/
theorem set_weightFlag (flags : UInt8) :
    (flags ||| weightFlag) &&& weightFlag ≠ 0 ∧
      (flags ||| weightFlag) &&& idFlag = flags &&& idFlag ∧
      (flags ||| weightFlag) &&& kindFlag = flags &&& kindFlag := by
  -- There are only so many words of eight bits.
  have all : ∀ bits : BitVec 8, (bits ||| 1) &&& 1 ≠ 0 ∧ (bits ||| 1) &&& 2 = bits &&& 2 ∧
      (bits ||| 1) &&& 4 = bits &&& 4 := by decide +kernel
  simp only [ne_eq, ← UInt8.toBitVec_inj]
  exact all flags.toBitVec

/-- Clearing the presence bit of the weight leaves the other bits alone. -/
theorem clear_weightFlag (flags : UInt8) :
    (flags &&& ~~~weightFlag) &&& weightFlag = 0 ∧
      (flags &&& ~~~weightFlag) &&& idFlag = flags &&& idFlag ∧
      (flags &&& ~~~weightFlag) &&& kindFlag = flags &&& kindFlag := by
  -- Flags are eight bits, so that all of them can be tried.
  have all : ∀ bits : BitVec 8, (bits &&& ~~~1) &&& 1 = 0 ∧ (bits &&& ~~~1) &&& 2 = bits &&& 2 ∧
      (bits &&& ~~~1) &&& 4 = bits &&& 4 := by decide +kernel
  simp only [← UInt8.toBitVec_inj]
  exact all flags.toBitVec

/-- A record with another weight stands for the edge with that weight. -/
@[simp] theorem toEdge_withWeight (record : EdgeRecord) (weight : Option Weight) :
    (record.withWeight weight).toEdge = { record.toEdge with weight := weight } := by
  -- A weight sets its presence bit, none clears it, and both leave the other bits alone.
  cases weight with
  | some weight =>
    obtain ⟨own, id, kind⟩ := set_weightFlag record.flags
    simp [withWeight, toEdge, weight?, id?, kind?, has, own, id, kind]
  | none =>
    obtain ⟨own, id, kind⟩ := clear_weightFlag record.flags
    simp [withWeight, toEdge, weight?, id?, kind?, has, own, id, kind]

/-- Presence bits tell which attributes an edge carries. -/
theorem has_flags (weight id kind : Bool) :
    ((((if weight then weightFlag else 0) ||| (if id then idFlag else 0) |||
      (if kind then kindFlag else 0)) &&& weightFlag != 0) = weight) ∧
    ((((if weight then weightFlag else 0) ||| (if id then idFlag else 0) |||
      (if kind then kindFlag else 0)) &&& idFlag != 0) = id) ∧
    ((((if weight then weightFlag else 0) ||| (if id then idFlag else 0) |||
      (if kind then kindFlag else 0)) &&& kindFlag != 0) = kind) := by
  cases weight <;> cases id <;> cases kind <;> decide

/-- The record of an edge stands for that edge. -/
@[simp] theorem toEdge_ofEdge (edge : Edge) (originRank : Nat) (originSeq : UInt64) :
    (ofEdge edge originRank originSeq).toEdge = edge := by
  obtain ⟨src, dst, weight, id, kind⟩ := edge
  -- The flags tell what was carried, and what was not is read as absent again.
  obtain ⟨hasWeight, hasId, hasKind⟩ := has_flags weight.isSome id.isSome kind.isSome
  simp only [toEdge, weight?, id?, kind?, has, ofEdge, hasWeight, hasId, hasKind, Edge.mk.injEq,
    true_and]
  refine ⟨?_, ?_, ?_⟩
  · cases weight <;> rfl
  · cases id <;> rfl
  · cases kind <;> rfl

/-- Another weight leaves the source. -/
@[simp] theorem src_withWeight (record : EdgeRecord) (weight : Option Weight) :
    (record.withWeight weight).src = record.src := by
  cases weight <;> rfl

/-- Another weight leaves the destination. -/
@[simp] theorem dst_withWeight (record : EdgeRecord) (weight : Option Weight) :
    (record.withWeight weight).dst = record.dst := by
  cases weight <;> rfl

/-- Another weight leaves the rank of origin. -/
@[simp] theorem originRank_withWeight (record : EdgeRecord) (weight : Option Weight) :
    (record.withWeight weight).originRank = record.originRank := by
  cases weight <;> rfl

/-- Another weight leaves the number at the origin. -/
@[simp] theorem originSeq_withWeight (record : EdgeRecord) (weight : Option Weight) :
    (record.withWeight weight).originSeq = record.originSeq := by
  cases weight <;> rfl

end DistGraph.EdgeRecord
