import DistGraph.Proofs.Construction.Frame

/-! How many vertices a graph has that keeps its ids. -/

namespace DistGraph.Construction

variable {size : Nat} {edges : Fin size → List Edge} {vertices : Fin size → List VertexId}

/-- The ids that a rank names. -/
def named (records : List EdgeRecord) (vertices : List VertexId) : List VertexId :=
  (records.flatMap fun record => [record.src, record.dst]) ++ vertices

/-- Whether every id has a word above it if that is asked for. -/
def Bounded (options : Options) (records : Fin size → List EdgeRecord)
    (vertices : Fin size → List VertexId) : Prop :=
  options.vertexCount = none →
    ∀ rank, ∀ id ∈ named (records rank) (vertices rank), id ≠ 0xffffffffffffffff

/-- The least word above some ids, unless the greatest word is among them. -/
def leastAbove (ids : List VertexId) : UInt64 :=
  -- Zero lies above no ids at all.
  (ids.max?.map (· + 1)).getD 0

/-- The least word above some ids is above each of them, unless one is the greatest word. -/
theorem lt_leastAbove {ids : List VertexId} (small : ∀ id ∈ ids, id ≠ 0xffffffffffffffff) :
    ∀ id ∈ ids, id < leastAbove ids := by
  intro id member
  unfold leastAbove
  cases greatest : ids.max? with
  | none => simp [List.max?_eq_none_iff.mp greatest] at member
  | some most =>
    obtain ⟨held, upper⟩ := List.max?_eq_some_iff.mp greatest
    have below := UInt64.le_iff_toNat_le.mp (upper id member)
    have apart : most.toNat ≠ 0xffffffffffffffff :=
      fun same => small most held (UInt64.toNat_inj.mp same)
    have word := most.toNat_lt
    -- The greatest id is not the greatest word, so adding one does not wrap.
    have next : (most + 1).toNat = most.toNat + 1 := by
      rw [UInt64.toNat_add]
      simp only [UInt64.reduceToNat]
      omega
    simp only [Option.map_some, Option.getD_some, UInt64.lt_iff_toNat_lt, next]
    omega

/-- The least word above some ids does not depend on their order. -/
theorem leastAbove_congr {ids others : List VertexId} (same : ∀ id, id ∈ ids ↔ id ∈ others) :
    leastAbove ids = leastAbove others := by
  unfold leastAbove
  -- It is told by the greatest id, if there is any.
  cases greatest : ids.max? with
  | none =>
    have none_there : others = [] := List.eq_nil_iff_forall_not_mem.mpr fun id member => by
      simp [List.max?_eq_none_iff.mp greatest, ← same] at member
    rw [none_there]
    rfl
  | some most =>
    obtain ⟨held, upper⟩ := List.max?_eq_some_iff.mp greatest
    have other : others.max? = some most :=
      List.max?_eq_some_iff.mpr ⟨(same most).mp held, fun id member => upper id ((same id).mpr member)⟩
    rw [other]

/-- A rank has a least vertex count unless it names the greatest word. -/
theorem vertexBound_eq_ok_iff {records : List EdgeRecord} {vertices : List VertexId} {bound : UInt64} :
    vertexBound records vertices = .ok bound ↔
      (∀ id ∈ named records vertices, id ≠ 0xffffffffffffffff) ∧
        bound = leastAbove (named records vertices) := by
  unfold vertexBound leastAbove named
  dsimp only
  -- Without ids the bound is zero.
  cases greatest : ((records.flatMap fun record => [record.src, record.dst]) ++ vertices).max? with
  | none =>
    rw [List.max?_eq_none_iff.mp greatest]
    simp [eq_comm]
  | some most =>
    obtain ⟨held, upper⟩ := List.max?_eq_some_iff.mp greatest
    dsimp only
    split
    · rename_i full
      simp only [reduceCtorEq, false_iff, not_and]
      intro small
      exact absurd full (small most held)
    · rename_i room
      -- If the greatest id leaves room, none of the others is the greatest word.
      have small : ∀ id ∈ (records.flatMap fun record => [record.src, record.dst]) ++ vertices,
          id ≠ 0xffffffffffffffff := by
        rintro id member rfl
        have below := UInt64.le_iff_toNat_le.mp (upper _ member)
        have word := most.toNat_lt
        apply room
        rw [← UInt64.toNat_inj]
        simp only [UInt64.reduceToNat] at below ⊢
        omega
      rw [and_iff_right small, Except.ok.injEq, eq_comm]
      rfl

/-- The number of vertices of a graph whose ids are kept. -/
def vertexTotal (options : Options) (records : Fin size → List EdgeRecord)
    (vertices : Fin size → List VertexId) : UInt64 :=
  -- A number that is given goes before what the ranks name.
  options.vertexCount.getD (Communicator.greatest
    (List.ofFn fun rank => leastAbove (named (records rank) (vertices rank))))

/-- The number of vertices lies above the ids that a rank names, unless the greatest word is among them. -/
theorem lt_vertexTotal_of_named {options : Options} {records : Fin size → List EdgeRecord}
    {rank : Fin size}
    (below : ∀ limit, options.vertexCount = some limit →
      ∀ id ∈ named (records rank) (vertices rank), id < limit)
    (bounded : options.vertexCount = none →
      ∀ id ∈ named (records rank) (vertices rank), id ≠ 0xffffffffffffffff) :
    ∀ id ∈ named (records rank) (vertices rank), id < vertexTotal options records vertices := by
  intro id member
  unfold vertexTotal
  -- A number that is given bounds the ids by the checks, and one that is found by being above those of
  -- all ranks.
  cases given : options.vertexCount with
  | some limit => exact below limit given id member
  | none =>
    refine UInt64.lt_of_lt_of_le (lt_leastAbove (bounded given) id member) ?_
    exact Communicator.le_greatest _ _ (List.mem_ofFn.mpr ⟨rank, rfl⟩)

/-- Ranks agree on the number of vertices, unless one has to find it above the greatest word. -/
theorem countVertices_computes (options : Options) (records : Fin size → List EdgeRecord)
    (vertices : Fin size → List VertexId) :
    Computes (fun rank => countVertices (records rank) (vertices rank) options) fun counts =>
      Bounded options records vertices ∧ counts = fun _ => vertexTotal options records vertices := by
  unfold countVertices vertexTotal Bounded
  -- A number that is given needs no exchange.
  cases options.vertexCount with
  | some count => exact (Computes.pure fun _ => count).congr fun counts => by simp
  | none =>
    have bounds : Computes (fun rank => (Program.ofExcept (vertexBound (records rank) (vertices rank)) :
        Program size Failure UInt64)) fun bounds =>
          (∀ rank, ∀ id ∈ named (records rank) (vertices rank), id ≠ 0xffffffffffffffff) ∧
          bounds = fun rank => leastAbove (named (records rank) (vertices rank)) := by
      refine (Computes.ofExcept _).congr fun bounds => ?_
      simp only [vertexBound_eq_ok_iff, forall_and, funext_iff]
    refine (bounds.afterIf _ fun _ =>
      (Communicator.allReduce_max_computes _).mapError).congr fun counts => ?_
    simp

section Bounds

/-- The ids that the ranks name are the vertices of the graph. -/
theorem mem_vertices_iff {options : Options} (ranks : size ≤ UInt32.size)
    (short : ∀ rank, (edges rank).length < UInt64.size) {id : VertexId} :
    id ∈ Reference.vertices options (everything edges) (everything vertices) ↔
      ∃ rank, id ∈ named (handedIn options edges rank) (vertices rank) := by
  simp only [Reference.vertices, ← placed_handedIn options ranks short, named, List.mem_append,
    List.mem_flatMap, List.mem_map, mem_everything]
  -- An endpoint is named by the rank that handed in its edge, and a listed vertex by the rank that listed
  -- it.
  constructor
  · rintro (⟨_, ⟨record, ⟨rank, held⟩, rfl⟩, ends⟩ | ⟨rank, listed⟩)
    · exact ⟨rank, .inl ⟨record, held, ends⟩⟩
    · exact ⟨rank, .inr listed⟩
  · rintro ⟨rank, ⟨record, held, ends⟩ | listed⟩
    · exact .inl ⟨_, ⟨record, ⟨rank, held⟩, rfl⟩, ends⟩
    · exact .inr ⟨rank, listed⟩

/-- The records of a rank name no other ids than its edges. -/
theorem named_subset (options : Options) (rank : Fin size) :
    named (handedIn options edges rank) (vertices rank) ⊆
      endpoints (edges rank) ++ vertices rank := by
  -- A record is made from an edge and keeps its endpoints.
  have origin : ∀ record ∈ EdgeRecord.ofEdges rank (edges rank),
      ∃ edge ∈ edges rank, record.src = edge.src ∧ record.dst = edge.dst := by
    intro record member
    obtain ⟨⟨edge, seq⟩, held, rfl⟩ := List.mem_map.mp member
    exact ⟨edge, (List.mem_zipIdx' held).2 ▸ List.getElem_mem _, rfl, rfl⟩
  intro id member
  unfold named at member
  rw [List.mem_append, List.mem_flatMap] at member
  rw [List.mem_append, mem_endpoints]
  rcases member with ⟨record, held, ends⟩ | listed
  · have made : record ∈ EdgeRecord.ofEdges rank (edges rank) := by
      unfold handedIn at held
      split at held
      · exact List.mem_of_mem_filter held
      · exact held
    obtain ⟨edge, own, src, dst⟩ := origin record made
    refine .inl ⟨edge, own, ?_⟩
    rw [← src, ← dst]
    simpa using ends
  · exact .inr listed

variable {options : Options} {number : Nat} (ranks : size ≤ UInt32.size)
  (short : ∀ rank, (edges rank).length < UInt64.size)
  (accepted : Accepted edges vertices options)
  (bounded : options.vertexCount = none →
    ∀ id ∈ Reference.vertices options (everything edges) (everything vertices),
      id ≠ 0xffffffffffffffff)

include ranks short accepted bounded

/-- The number of vertices lies above all of them. -/
theorem lt_vertexTotal : ∀ id ∈ Reference.vertices options (everything edges) (everything vertices),
    id < vertexTotal options (handedIn options edges) vertices := by
  intro id member
  -- Each vertex is named by some rank, whose ids are bounded.
  obtain ⟨rank, held⟩ := (mem_vertices_iff ranks short).mp member
  refine lt_vertexTotal_of_named (fun limit given other own => ?_) (fun given other own => ?_) id held
  · exact lt_of_checkOwn given (accepted.own rank) other (named_subset options rank own)
  · exact bounded given other ((mem_vertices_iff ranks short).mpr ⟨rank, own⟩)

end Bounds

end DistGraph.Construction
