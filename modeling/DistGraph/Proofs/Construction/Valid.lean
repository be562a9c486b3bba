import DistGraph.Proofs.Construction.Outcomes

/-! Ranks that are given valid input all come to their shares of one graph. -/

namespace DistGraph.Construction

variable {size : Nat} {members : Fin size → Member size} {options : Options}
  {edges : Fin size → List Edge} {vertices : Fin size → List VertexId}

/-- Whether a graph can be constructed of what ranks are given. -/
structure Valid (edges : Fin size → List Edge) (vertices : Fin size → List VertexId) (options : Options) :
    Prop where
  /-- All weights are finite. -/
  finite : ∀ rank, ∀ edge ∈ edges rank, ∀ weight, edge.weight = some weight → weight.isFinite = true
  /-- All ids are below a number of vertices that is given. -/
  below : ∀ limit, options.vertexCount = some limit →
    ∀ rank, ∀ id ∈ endpoints (edges rank) ++ vertices rank, id < limit
  /-- A number of vertices that is not given lies above all ids that are kept. -/
  small : options.renumber = false → options.vertexCount = none →
    ∀ rank, ∀ id ∈ endpoints (edges rank) ++ vertices rank, id ≠ 0xffffffffffffffff
  /-- Lists that are checked name no vertex twice. -/
  once : options.check = true → everything vertices ≠ [] → (everything vertices).Nodup
  /-- Lists that are checked name all endpoints. -/
  listed : options.check = true → everything vertices ≠ [] →
    ∀ vertex ∈ endpoints (everything edges), vertex ∈ everything vertices

namespace Valid

/-- Valid input passes all checks. -/
theorem accepted (valid : Valid edges vertices options) : Accepted edges vertices options := by
  refine ⟨fun rank => ?_, fun checks => ?_, valid.listed⟩
  · exact checkOwn_eq_ok_iff.mpr ⟨valid.finite rank, fun limit given => valid.below limit given rank⟩
  · -- Without lists no vertex is listed twice.
    by_cases none_there : everything vertices = []
    · rw [none_there]
      exact List.nodup_nil
    · exact valid.once checks none_there

/-- The ids that are kept of valid input have a number above them. -/
theorem bounded (valid : Valid edges vertices options) (keeps : options.renumber = false) :
    Bounded options (handedIn options edges) vertices :=
  fun absent rank id member => valid.small keeps absent rank id (named_subset options rank member)

end Valid

/-- Whether what ranks keep fits together. -/
structure Coherent (partition : Partition size) (constructed : Fin size → Constructed size) : Prop where
  /-- All ranks have the same partition, in all that they keep. -/
  shared : ∀ rank, (constructed rank).partition = partition ∧
    (constructed rank).view.partition = partition ∧ (constructed rank).numbering.partition = partition
  /-- Every rank keeps its own share. -/
  own : ∀ rank, (constructed rank).view.rank = rank ∧ (constructed rank).numbering.rank = rank
  /-- Every rank counts the edges that all ranks store. -/
  total : ∀ rank, (constructed rank).view.globalEdgeCount.toNat =
    (List.ofFn fun peer => (constructed peer).view.edgeCount).sum
  /-- Every row that holds an edge is the row of a vertex of the rank. -/
  owned : ∀ rank, ∀ segment ∈ (constructed rank).view.segments, ∀ index,
    segment.table.row index ≠ [] →
      (partition.spanOf rank).start.toNat ≤ segment.firstVertex.toNat + index ∧
        segment.firstVertex.toNat + index < (partition.spanOf rank).stop.toNat

/-- Shares of one graph fit together. -/
theorem OneGraph.coherent {partition : Partition size} {records : Fin size → List EdgeRecord}
    {constructed : Fin size → Constructed size}
    (graph : OneGraph members options edges partition records constructed)
    (lawful : ∀ rank, (members rank).sorter.Lawful)
    (fits : 2 * (everything edges).length < UInt64.size) : Coherent partition constructed := by
  -- Everything that ranks share is a field of their views, and what they store is bounded by their runs.
  have built := graph.built
  refine ⟨fun rank => ⟨(graph.shared rank).1, ?_, (graph.shared rank).2.1⟩,
    fun rank => ⟨?_, (graph.shared rank).2.2⟩, fun rank => ?_, fun rank segment member index filled => ?_⟩
  · exact built.partition_eq rank
  · exact built.rank_eq rank
  · rw [built.globalEdgeCount_eq lawful (Nat.lt_of_le_of_lt graph.few fits), length_everything]
    simp only [built.edgeCount_eq lawful]
  · exact built.row_inside lawful member filled

/-- Ranks without a limit that can count what they exchange all come to their shares of one graph if
what they are given is valid. -/
theorem construct_coherent (crew : Crew size) (occupied : 0 < size)
    (free : ∀ rank, (crew.members rank).memory = none) (edges : Fin size → List Edge)
    (vertices : Fin size → List VertexId) (options : Options) (valid : Valid edges vertices options)
    (countable : Countable crew.members options edges vertices)
    (run : Cluster.Run (Vector.ofFn fun rank =>
      construct (crew.members rank) (edges rank) (vertices rank) options)) :
    ∃ partition constructed, (∀ rank, run.outcome rank = some (.ok (constructed rank))) ∧
      Coherent partition constructed := by
  -- Valid input leaves nothing that a rank could reject.
  have allows : Allows (Premises.all free) options edges vertices := by
    refine ⟨fun _ rank fault refused => ?_, fun checks rank fault => ?_, fun keeps absent rank great => ?_⟩
    · exact nomatch (valid.accepted.own rank).symm.trans refused
    · exact valid.accepted.not_refuses crew.lawful checks rank fault
    · exact valid.bounded keeps absent rank _ great rfl
  obtain ⟨constructed, kept, known, leads⟩ := construct_leads crew.ranked crew.lawful ⟨0, occupied⟩
    (fun _ => countable) allows
  have ends := run.succeeds free (leads.mono (fun _ fact => fact) fun _ reached => reached.1)
  obtain ⟨partition, records, graph⟩ := known fun rank => (ends rank).1
  exact ⟨partition, constructed, fun rank => (ends rank).2,
    graph.coherent crew.lawful countable.lt_word⟩

/-- Two ranks come to their shares of a graph of what they are given. -/
theorem construct_coherent_sample :
    ∃ (run : Cluster.Run (Vector.ofFn fun rank : Fin 2 =>
        construct ((Crew.stable fun _ => none).members rank) (sampleEdges rank) (![[2, 0], [1, 5]] rank)
          sampleOptions))
      (partition : Partition 2) (constructed : Fin 2 → Constructed 2),
      (∀ rank, run.outcome rank = some (.ok (constructed rank))) ∧ Coherent partition constructed := by
  obtain ⟨run⟩ := Cluster.Run.exists_of_programs (Vector.ofFn fun rank : Fin 2 =>
    construct ((Crew.stable fun _ => none).members rank) (sampleEdges rank) (![[2, 0], [1, 5]] rank)
      sampleOptions)
  -- The lists have all endpoints, and no id is the greatest word.
  have named : (endpoints (everything sampleEdges)).all
      (everything ![[2, 0], [1, 5]]).contains = true := by decide
  have apart : ∀ rank, (endpoints (sampleEdges rank) ++ ![[2, 0], [1, 5]] rank).all
      (· != 0xffffffffffffffff) = true := by decide
  have valid : Valid sampleEdges ![[2, 0], [1, 5]] sampleOptions := by
    refine ⟨fun rank => (checkOwn_eq_ok_iff.mp (sample_accepted.own rank)).1, fun limit given => ?_,
      fun _ _ rank id member => ?_, fun _ _ => by decide, fun _ _ vertex member => ?_⟩
    · cases given
    · exact bne_iff_ne.mp (List.all_eq_true.mp (apart rank) id member)
    · exact List.contains_iff_mem.mp (List.all_eq_true.mp named vertex member)
  exact ⟨run, construct_coherent (Crew.stable fun _ => none) (by decide) (fun _ => rfl) sampleEdges
    ![[2, 0], [1, 5]] sampleOptions valid (.of_few (Crew.stable fun _ => none).lawful (by decide)) run⟩

end DistGraph.Construction
