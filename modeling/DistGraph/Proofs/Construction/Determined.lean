import DistGraph.Proofs.Adjacency.Rows
import DistGraph.Proofs.Construction.Verdict
import DistGraph.Proofs.Numbering.Determined

/-! New ids and neighbours are determined by the endpoints of all edges and the vertices that are listed,
wherever and in whatever order they are handed in. -/

namespace DistGraph.Construction

open DistGraph.Numbering (Agreement newOf)

variable {size : Nat} {members others : Fin size → Member size} (options : Options)

/-- Records that are handed in have the endpoints of the edges, less those of self-loops that are dropped. -/
theorem map_ends_handedIn (edges : Fin size → List Edge) :
    (everything (handedIn options edges)).map EdgeRecord.ends =
      ((everything edges).map Edge.ends).filter fun ends =>
        !options.dropSelfLoops || ends.1 != ends.2 := by
  rw [map_everything, map_everything, filter_everything]
  refine congrArg everything (funext fun rank => ?_)
  unfold handedIn
  -- Self-loops are told by their endpoints, before or after records are made.
  cases options.dropSelfLoops with
  | false => simp [EdgeRecord.map_ends_ofEdges]
  | true =>
    rw [if_pos rfl, ← EdgeRecord.map_ends_ofEdges rank (edges rank), List.filter_map]
    rfl

/-- Records with the same endpoints are bound for the same ranks. -/
theorem bound_ends_perm (placement : Placement) {left right : List EdgeRecord}
    (same : (left.map EdgeRecord.ends).Perm (right.map EdgeRecord.ends)) (rank : Fin size) :
    ((Grouping.bound (placement.destination size) left rank).map EdgeRecord.ends).Perm
      ((Grouping.bound (placement.destination size) right rank).map EdgeRecord.ends) := by
  refine EdgeRecord.filter_ends_perm _ (fun left right same => ?_) same
  obtain ⟨src, dst⟩ := Prod.mk.inj same
  rw [placement.destination_congr size left right src dst]

section Stages

variable {records otherRecords : Fin size → List EdgeRecord}
  (lawful : ∀ rank, (members rank).sorter.Lawful) (otherLawful : ∀ rank, (others rank).sorter.Lawful)
  (same : ((everything records).map EdgeRecord.ends).Perm ((everything otherRecords).map EdgeRecord.ends))

include lawful otherLawful same

/-- Records that are cleaned up before they get new ids have the same endpoints. -/
theorem tidied_ends_perm (rank : Fin size) :
    ((tidied options members records rank).map EdgeRecord.ends).Perm
      ((tidied options others otherRecords rank).map EdgeRecord.ends) := by
  -- What is left of the endpoints of a rank depends on these up to their order, on either side.
  refine (Cleanup.map_ends_tidy_perm (lawful rank) options.mergePolicy options.addReverses).trans ?_
  refine List.Perm.trans ?_
    (Cleanup.map_ends_tidy_perm (otherLawful rank) options.mergePolicy options.addReverses).symm
  exact Cleanup.tidiedEnds_perm _ _ (bound_ends_perm _ same rank)

/-- Records of all ranks that are cleaned up have the same endpoints. -/
theorem everything_tidied_ends_perm :
    ((everything (tidied options members records)).map EdgeRecord.ends).Perm
      ((everything (tidied options others otherRecords)).map EdgeRecord.ends) := by
  rw [map_everything, map_everything]
  exact everything_perm (tidied_ends_perm options lawful otherLawful same)

/-- Records that get the same new ids have the same endpoints when they arrive at the owners of these. -/
theorem arrived_ends_perm {agreement otherAgreement : Agreement size}
    (parts : agreement.parts = otherAgreement.parts)
    (partition : agreement.partition = otherAgreement.partition) (rank : Fin size) :
    ((arrived options members records agreement rank).map EdgeRecord.ends).Perm
      ((arrived options others otherRecords otherAgreement rank).map EdgeRecord.ends) := by
  -- Both sides rename by the same ids and send by the same partition.
  unfold arrived
  rw [partition]
  refine bound_ends_perm _ ?_ rank
  unfold relabelled
  rw [parts, map_everything, map_everything]
  refine everything_perm fun sender => ?_
  rw [List.map_map, List.map_map]
  refine EdgeRecord.map_perm_of_ends _ (fun left right equal => ?_)
    (tidied_ends_perm options lawful otherLawful same sender)
  obtain ⟨src, dst⟩ := Prod.mk.inj equal
  simp only [Function.comp_apply, EdgeRecord.ends, EdgeRecord.renamed, src, dst]

end Stages

/-- Records with the same endpoints are built to rows with the same targets. -/
theorem targets_eq {records otherRecords : Fin size → List EdgeRecord} {partition : Partition size}
    {transposed : Bool} {budget : Option UInt64} {views otherViews : Fin size → View size}
    (lawful : ∀ rank, (members rank).sorter.Lawful) (otherLawful : ∀ rank, (others rank).sorter.Lawful)
    (built : View.Built members records partition transposed budget views)
    (otherBuilt : View.Built others otherRecords partition transposed budget otherViews) {rank : Fin size}
    (same : ((records rank).map EdgeRecord.ends).Perm ((otherRecords rank).map EdgeRecord.ends))
    (vertex : VertexId) : ((views rank).neighbors vertex).map Prod.fst =
      ((otherViews rank).neighbors vertex).map Prod.fst := by
  -- Rows are in order by target, and the targets are the minor endpoints of the records.
  have named : ∀ view : View size, (view.neighbors vertex).map Prod.fst =
      (view.halfEdges vertex).map HalfEdge.target := by
    intro view
    rw [View.neighbors, List.map_map]
    rfl
  rw [named, named]
  have kept := EdgeRecord.filter_ends_perm (fun record => record.major transposed = vertex)
    (fun left right equal => by simp only [EdgeRecord.major_congr equal]) same
  have targets := EdgeRecord.map_perm_of_ends (fun record => record.minor transposed)
    (fun left right equal => EdgeRecord.minor_congr equal) kept
  refine List.Perm.eq_of_pairwise (fun _ _ _ _ before after => UInt64.le_antisymm before after)
    (List.pairwise_map.mpr (built.targets_ascend lawful rank vertex))
    (List.pairwise_map.mpr (otherBuilt.targets_ascend otherLawful rank vertex)) ?_
  exact (built.targets_perm lawful rank vertex).trans
    (targets.trans (otherBuilt.targets_perm otherLawful rank vertex).symm)

/-- Whether ranks keep graphs with the same vertices, new ids and neighbours. -/
structure Alike (constructed others : Fin size → Constructed size) : Prop where
  /-- New ids are shared out in the same way. -/
  partition : ∀ rank, (constructed rank).partition = (others rank).partition
  /-- Every rank keeps the same old and new ids. -/
  pairs : ∀ rank, (constructed rank).numbering.pairs = (others rank).numbering.pairs
  /-- Every rank lists the same targets for a vertex, in the same order. -/
  targets : ∀ rank vertex, ((constructed rank).view.neighbors vertex).map Prod.fst =
    ((others rank).view.neighbors vertex).map Prod.fst

/-- Ranks without a limit that can count what they exchange construct a graph on new ids of input that
passes all checks. -/
theorem exists_constructed_anew {options : Options} {edges : Fin size → List Edge}
    {vertices : Fin size → List VertexId} (crew : Crew size) (occupied : 0 < size)
    (free : ∀ rank, (crew.members rank).memory = none) (renumbers : options.renumber = true)
    (accepted : Accepted edges vertices options)
    (countable : Countable crew.members options edges vertices)
    (run : Cluster.Run (Vector.ofFn fun rank =>
      construct (crew.members rank) (edges rank) (vertices rank) options)) :
    ∃ constructed : Fin size → Constructed size,
      ∀ rank, run.outcome rank = some (.ok (constructed rank)) := by
  refine exists_constructed_of_accepted crew occupied free accepted (fun keeps => ?_) countable run
  exact absurd renumbers (by simp [keeps])

/-- Ranks that are given the same endpoints over all edges and the same vertices over all lists give out the
same new ids, whichever ranks hold them, in whatever order and with whatever attributes, and every vertex
has the same neighbours in the same order. Ranks without a limit that can count what they exchange do get
so far if the input is accepted. -/
theorem newIds_determined (crew other : Crew size) (occupied : 0 < size)
    (edges otherEdges : Fin size → List Edge) (vertices otherVertices : Fin size → List VertexId)
    (options : Options) (renumbers : options.renumber = true)
    (sameEnds : ((everything edges).map Edge.ends).Perm ((everything otherEdges).map Edge.ends))
    (sameVertices : ∀ vertex, vertex ∈ everything vertices ↔ vertex ∈ everything otherVertices)
    (run : Cluster.Run (Vector.ofFn fun rank =>
      construct (crew.members rank) (edges rank) (vertices rank) options))
    (otherRun : Cluster.Run (Vector.ofFn fun rank =>
      construct (other.members rank) (otherEdges rank) (otherVertices rank) options)) :
    (∀ constructed others, (∀ rank, run.outcome rank = some (.ok (constructed rank))) →
      (∀ rank, otherRun.outcome rank = some (.ok (others rank))) → Alike constructed others) ∧
    ((∀ rank, (crew.members rank).memory = none) → (∀ rank, (other.members rank).memory = none) →
      Accepted edges vertices options → Accepted otherEdges otherVertices options →
      Countable crew.members options edges vertices →
      Countable other.members options otherEdges otherVertices →
      ∃ constructed others, (∀ rank, run.outcome rank = some (.ok (constructed rank))) ∧
        (∀ rank, otherRun.outcome rank = some (.ok (others rank))) ∧ Alike constructed others) := by
  have alike : ∀ constructed others, (∀ rank, run.outcome rank = some (.ok (constructed rank))) →
      (∀ rank, otherRun.outcome rank = some (.ok (others rank))) → Alike constructed others := by
    intro constructed others ends otherEnds
    obtain ⟨-, agreement, renumbered, views, built, rfl⟩ :=
      (construct_computes_newIds crew ⟨0, occupied⟩ edges vertices renumbers).together_iff.mp
        (run.together_iff.mp ends)
    obtain ⟨-, otherAgreement, otherRenumbered, otherViews, otherBuilt, rfl⟩ :=
      (construct_computes_newIds other ⟨0, occupied⟩ otherEdges otherVertices renumbers).together_iff.mp
        (otherRun.together_iff.mp otherEnds)
    -- The same endpoints are handed in, cleaned up, numbered and stored.
    have handed : ((everything (handedIn options edges)).map EdgeRecord.ends).Perm
        ((everything (handedIn options otherEdges)).map EdgeRecord.ends) := by
      rw [map_ends_handedIn, map_ends_handedIn]
      exact sameEnds.filter _
    have tidy := everything_tidied_ends_perm options crew.lawful other.lawful handed
    have agreed := renumbered.assigned.agreed
    have otherAgreed := otherRenumbered.assigned.agreed
    -- Counts and labels agree, and with them the partition and all pairs.
    have partition := Numbering.partition_eq crew.lawful other.lawful tidy sameVertices agreed otherAgreed
    have parts := Numbering.parts_eq crew.lawful other.lawful tidy sameVertices agreed otherAgreed
    refine ⟨fun rank => partition, fun rank => ?_, fun rank vertex => ?_⟩
    · exact congrArg (fun parts : Fin size → Numbering size => (parts rank).pairs) parts
    · exact targets_eq crew.lawful other.lawful built (partition ▸ otherBuilt)
        (arrived_ends_perm options crew.lawful other.lawful handed parts partition rank) vertex
  refine ⟨alike, fun free otherFree accepted otherAccepted countable otherCountable => ?_⟩
  obtain ⟨constructed, ends⟩ :=
    exists_constructed_anew crew occupied free renumbers accepted countable run
  obtain ⟨others, otherEnds⟩ :=
    exists_constructed_anew other occupied otherFree renumbers otherAccepted otherCountable otherRun
  exact ⟨constructed, others, ends, otherEnds, alike constructed others ends otherEnds⟩

/-- Two ranks give out the same new ids when edges trade places and attributes, and vertices are listed
again. -/
theorem newIds_determined_sample :
    let options : Options := { sampleOptions with renumber := true, check := false }
    let traded : Fin 2 → List Edge := ![[⟨2, 1, none, some 4, none⟩, ⟨0, 1, none, none, none⟩],
      [⟨2, 1, none, none, some 3⟩, ⟨0, 0, none, none, none⟩]]
    ∃ (run : Cluster.Run (Vector.ofFn fun rank : Fin 2 =>
        construct ((Crew.stable fun _ => none).members rank) (sampleEdges rank) (![[2, 0], [1, 5]] rank)
          options))
      (otherRun : Cluster.Run (Vector.ofFn fun rank : Fin 2 =>
        construct ((Crew.stable fun _ => none).members rank) (traded rank) (![[5, 5, 1], [0, 2, 5]] rank)
          options))
      (constructed others : Fin 2 → Constructed 2),
      (∀ rank, run.outcome rank = some (.ok (constructed rank))) ∧
      (∀ rank, otherRun.outcome rank = some (.ok (others rank))) ∧ Alike constructed others := by
  intro options traded
  let crew : Crew 2 := Crew.stable fun _ => none
  let listed : Fin 2 → List VertexId := ![[2, 0], [1, 5]]
  let again : Fin 2 → List VertexId := ![[5, 5, 1], [0, 2, 5]]
  obtain ⟨run⟩ := Cluster.Run.exists_of_programs (Vector.ofFn fun rank : Fin 2 =>
    construct (crew.members rank) (sampleEdges rank) (listed rank) options)
  obtain ⟨otherRun⟩ := Cluster.Run.exists_of_programs (Vector.ofFn fun rank : Fin 2 =>
    construct (crew.members rank) (traded rank) (again rank) options)
  -- The second lists name the ids of the first ones, some of them twice.
  have sameVertices : ∀ vertex, vertex ∈ everything listed ↔ vertex ∈ everything again := by
    intro vertex
    simp only [mem_everything, Fin.exists_fin_two, listed, again, Matrix.cons_val_zero, Matrix.cons_val_one,
      Matrix.cons_val_fin_one, List.mem_cons, List.not_mem_nil, or_false]
    tauto
  have unchecked : options.check = false := rfl
  have accepted : ∀ (edges : Fin 2 → List Edge) vertices,
      (∀ rank, checkOwn (edges rank) (vertices rank) options = .ok ()) →
      Accepted edges vertices options := fun _ _ own =>
    ⟨own, by simp [unchecked], by simp [unchecked]⟩
  exact ⟨run, otherRun, (newIds_determined crew crew (by decide) sampleEdges traded listed again options rfl
    (by decide) sameVertices run otherRun).2 (fun _ => rfl) (fun _ => rfl)
    (accepted _ _ (by decide)) (accepted _ _ (by decide)) (.of_few crew.lawful (by decide))
    (.of_few crew.lawful (by decide))⟩

end DistGraph.Construction
