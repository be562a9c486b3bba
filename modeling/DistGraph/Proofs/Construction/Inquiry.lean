import DistGraph.Proofs.Construction.GivenIds
import DistGraph.Proofs.Construction.NewIds
import DistGraph.Proofs.Construction.Verdict
import DistGraph.Proofs.Numbering.Inquiry

/-! Ranks that have numbered a graph together tell each other all of its ids. -/

namespace DistGraph.Construction

variable {size : Nat}

section Vertices

variable {options : Options} {id : VertexId}

/-- The records of all ranks have the endpoints of all edges that stay. -/
theorem mem_vertices_iff_handedIn {edges : Fin size → List Edge} {listed : List VertexId} :
    id ∈ Reference.vertices options (everything edges) listed ↔
      (∃ record ∈ everything (handedIn options edges), id = record.src ∨ id = record.dst) ∨
        id ∈ listed := by
  -- Dropping self-loops drops the same endpoints from the edges and from the records.
  have own : ∀ rank, (∃ record ∈ handedIn options edges rank, id = record.src ∨ id = record.dst) ↔
      ∃ edge ∈ edges rank, (options.dropSelfLoops = true → edge.src ≠ edge.dst) ∧
        (id = edge.src ∨ id = edge.dst) := by
    intro rank
    have same : id ∈ named (handedIn options edges rank) [] ↔
        id ∈ Reference.vertices options (edges rank) [] := mem_named_handedIn_iff
    rw [Numbering.mem_named, Reference.mem_vertices_iff_ends] at same
    simpa using same
  rw [Reference.mem_vertices_iff_ends]
  simp only [mem_everything]
  constructor
  · rintro (⟨edge, ⟨rank, held⟩, stays⟩ | member)
    · obtain ⟨record, found, ends⟩ := (own rank).mpr ⟨edge, held, stays⟩
      exact .inl ⟨record, ⟨rank, found⟩, ends⟩
    · exact .inr member
  · rintro (⟨record, ⟨rank, found⟩, ends⟩ | member)
    · obtain ⟨edge, held, stays⟩ := (own rank).mp ⟨record, found, ends⟩
      exact .inl ⟨edge, ⟨rank, held⟩, stays⟩
    · exact .inr member

/-- Cleaning up neither loses an endpoint of a record nor adds one. -/
theorem exists_tidied_iff {members : Fin size → Member size}
    (lawful : ∀ rank, (members rank).sorter.Lawful) (someone : Fin size)
    {records : Fin size → List EdgeRecord} :
    (∃ record ∈ everything (tidied options members records), id = record.src ∨ id = record.dst) ↔
      ∃ record ∈ everything records, id = record.src ∨ id = record.dst := by
  -- Cleaning up makes no new endpoints, and keeps a record for those of every record that meets there.
  constructor
  · rintro ⟨record, member, ends⟩
    obtain ⟨rank, held⟩ := mem_everything.mp member
    have known := forall_cleaned lawful
      (fun id => ∃ record ∈ everything records, id = record.src ∨ id = record.dst)
      (fun record member => ⟨⟨record, member, .inl rfl⟩, record, member, .inr rfl⟩) rank record held
    rcases ends with rfl | rfl
    · exact known.1
    · exact known.2
  · rintro ⟨record, member, ends⟩
    obtain ⟨rank, goes⟩ := exists_meeting options someone record
    have bound : record ∈ Grouping.bound ((meeting options (.byHash options.transposed)).destination size)
        (everything records) rank := List.mem_filter.mpr ⟨member, decide_eq_true goes⟩
    obtain ⟨kept, found, src, dst⟩ := Cleanup.exists_mem_tidy (lawful rank) options.mergePolicy
      options.addReverses bound
    refine ⟨kept, mem_everything.mpr ⟨rank, found⟩, ?_⟩
    rw [src, dst]
    exact ends

end Vertices

/-- What the vertices are taken from that ranks number together. -/
inductive Source (size : Nat) where
  /-- A graph is constructed, which may keep its ids. -/
  | graph (edges : Fin size → List Edge) (vertices : Fin size → List VertexId) (options : Options)
  /-- All ids that records and lists name get new ones. -/
  | records (held : Fin size → List EdgeRecord) (vertices : Fin size → List VertexId)
      (order : IdOrder) (transposed : Bool)

namespace Source

/-- How the ranks come to their parts of the numbering. -/
def number (source : Source size) (crew : Crew size) (rank : Fin size) :
    Program size Failure (Numbering size) :=
  match source with
  | graph edges vertices options => do
    let constructed ← construct (crew.members rank) (edges rank) (vertices rank) options
    return constructed.numbering
  | records held vertices order transposed => do
    let assigned ← Numbering.assign (crew.members rank) (held rank) (vertices rank) order transposed
    return assigned.1

/-- Whether an id is the old one of a vertex, where a given number of vertices is numbered. -/
def hasVertex (source : Source size) (count : UInt64) (old : VertexId) : Bool :=
  match source with
  | graph edges vertices options =>
    -- All ids below the number of vertices are vertices if ids are kept.
    if options.renumber then
      (Reference.vertices options (everything edges) (everything vertices)).contains old
    else decide (old < count)
  | records held vertices _ _ => (named (everything held) (everything vertices)).contains old

/-- Whether ranks keep a numbering of exactly the vertices. -/
structure Keeps (source : Source size) (numberings : Fin size → Numbering size) : Prop where
  /-- What they keep is a numbering. -/
  kept : Numbering.Kept numberings
  /-- The vertices have new ids, and nothing else has. -/
  vertices : ∀ rank old, (∃ new, Numbering.Assigns numberings old new) ↔
    source.hasVertex (numberings rank).vertexCount old = true

/-- Ranks go on from a graph with the parts of the numbering. -/
theorem numberings_eq {α : Type} {programs : Fin size → Program size Failure α}
    {describes : (Fin size → α) → Prop} (computes : Computes programs describes)
    (part : α → Numbering size) {numberings : Fin size → Numbering size}
    (together : Together (fun rank => programs rank >>= fun value => pure (part value)) numberings) :
    ∃ results, describes results ∧ numberings = fun rank => part (results rank) := by
  obtain ⟨results, described, ended⟩ := (computes _ _ _).mp together
  exact ⟨results, described, (Computes.pure fun rank => part (results rank)).together_iff.mp ended⟩

variable {crew : Crew size} (someone : Fin size)

include someone

/-- Ranks that construct a graph keep a numbering of its vertices. -/
theorem graph_keeps {edges : Fin size → List Edge} {vertices : Fin size → List VertexId}
    {options : Options} {numberings : Fin size → Numbering size}
    (together : Together (fun rank => (graph edges vertices options).number crew rank) numberings) :
    (graph edges vertices options).Keeps numberings := by
  -- Given ids are kept as they are, and new ones are the labels of the agreement.
  cases renumbers : options.renumber with
  | false =>
    obtain ⟨partition, -, computes⟩ := construct_computes_givenIds crew someone edges vertices renumbers
    obtain ⟨_, ⟨-, -, -, views, -, rfl⟩, rfl⟩ := numberings_eq computes Constructed.numbering together
    refine ⟨.unchanged partition, fun rank old => ?_⟩
    simp only [Numbering.assigns_identity_iff, exists_and_left, exists_eq', and_true, hasVertex,
      renumbers, Bool.false_eq_true, if_false, decide_eq_true_eq]
    rfl
  | true =>
    obtain ⟨_, ⟨-, agreement, renumbered, views, -, rfl⟩, rfl⟩ :=
      numberings_eq (construct_computes_newIds crew someone edges vertices renumbers)
        Constructed.numbering together
    refine ⟨.labelled (renumbered.assigned.labels crew.lawful), fun rank old => ?_⟩
    rw [hasVertex, if_pos renumbers, List.contains_iff_mem, mem_vertices_iff_handedIn,
      ← exists_tidied_iff crew.lawful someone,
      ← renumbered.assigned.gathered.mem_everything_owned_iff crew.lawful]
    exact Numbering.exists_assigns_part_iff _ _

/-- Ranks that number the vertices of records keep a numbering of these. -/
theorem records_keeps {held : Fin size → List EdgeRecord} {vertices : Fin size → List VertexId}
    {order : IdOrder} {transposed : Bool} {numberings : Fin size → Numbering size}
    (together : Together (fun rank => (records held vertices order transposed).number crew rank)
      numberings) : (records held vertices order transposed).Keeps numberings := by
  -- What they number are the vertices that they name, merged and shared out.
  obtain ⟨_, ⟨agreement, assigned, rfl⟩, rfl⟩ :=
    numberings_eq (Numbering.assign_computes crew.ranked crew.lawful someone) Prod.fst together
  refine ⟨.labelled (assigned.labels crew.lawful), fun rank old => ?_⟩
  rw [hasVertex, List.contains_iff_mem, ← assigned.agreed.mem_labels_iff crew.lawful]
  exact Numbering.exists_assigns_part_iff _ _

/-- Ranks that have numbered the vertices keep a numbering of them. -/
theorem keeps (source : Source size) {numberings : Fin size → Numbering size}
    (together : Together (fun rank => source.number crew rank) numberings) :
    source.Keeps numberings := by
  cases source with
  | graph edges vertices options => exact graph_keeps someone together
  | records held vertices order transposed => exact records_keeps someone together

end Source

open DistGraph.Numbering (Assigns Changed Inquirable askNewIds askOldIds newRoute oldRoute)

/-- However the ranks take turns, ranks without a limit that have numbered vertices together and can
count the questions are told the new ids of all vertices that they ask for, the old ids of all new ones,
and nothing else, each where it was asked for.

If they ask for the old ids of the new ids that they are told, they get the vertices back. -/
theorem inquiries_exact (crew : Crew size) (occupied : 0 < size)
    (free : ∀ rank, (crew.members rank).memory = none) (source : Source size)
    (made : Cluster.Run (Vector.ofFn fun rank => source.number crew rank))
    (numberings : Fin size → Numbering size)
    (ends : ∀ rank, made.outcome rank = some (.ok (numberings rank)))
    (ids : Fin size → List VertexId) :
    ((Changed numberings → Inquirable newRoute ids) →
      ∀ run : Cluster.Run (Vector.ofFn fun rank => do
        let numbering ← source.number crew rank
        askNewIds (crew.members rank) numbering (ids rank)),
      ∀ rank, ∃ answers, run.outcome rank = some (.ok answers) ∧
        List.Forall₂ (fun old answer =>
          (answer.isSome ↔ source.hasVertex (numberings rank).vertexCount old = true) ∧
          ∀ new, answer = some new ↔ Assigns numberings old new) (ids rank) answers) ∧
    ((Changed numberings → Inquirable (oldRoute numberings) ids) →
      ∀ run : Cluster.Run (Vector.ofFn fun rank => do
        let numbering ← source.number crew rank
        askOldIds (crew.members rank) numbering (ids rank)),
      ∀ rank, ∃ answers, run.outcome rank = some (.ok answers) ∧
        List.Forall₂ (fun new answer =>
          (answer.isSome ↔ new < (numberings rank).vertexCount) ∧
          ∀ old, answer = some old ↔ Assigns numberings old new) (ids rank) answers) ∧
    ((Changed numberings → Inquirable newRoute ids) →
      ∀ run : Cluster.Run (Vector.ofFn fun rank => do
        let numbering ← source.number crew rank
        let found ← askNewIds (crew.members rank) numbering (ids rank)
        askOldIds (crew.members rank) numbering (found.filterMap id)),
      ∀ rank, run.outcome rank = some (.ok
        (((ids rank).filter (source.hasVertex (numberings rank).vertexCount)).map some))) := by
  have together := made.together_iff.mp ends
  have keeps := source.keeps ⟨0, occupied⟩ together
  -- All ranks find the same answers, whatever kind of numbering they keep.
  obtain ⟨forth, back, answers⟩ := keeps.kept.exists_answers ⟨0, occupied⟩
  have known : ∀ rank old, (forth old).isSome ↔
      source.hasVertex (numberings rank).vertexCount old = true := by
    intro rank old
    rw [← keeps.vertices, Option.isSome_iff_exists]
    simp only [answers.newIds]
  refine ⟨fun counted run rank => ?_, fun counted run rank => ?_, fun counted run rank => ?_⟩
  · have told := run.together_iff.mpr (.bind together (answers.forthTold free counted))
    refine ⟨_, told rank, List.forall₂_map_right_iff.mpr ?_⟩
    exact List.forall₂_same.mpr fun old _ => ⟨known rank old, fun new => answers.newIds old new⟩
  · have told := run.together_iff.mpr (.bind together (answers.backTold free counted))
    refine ⟨_, told rank, List.forall₂_map_right_iff.mpr ?_⟩
    exact List.forall₂_same.mpr fun new _ => ⟨answers.all rank new, fun old => answers.oldIds old new⟩
  · have told := run.together_iff.mpr (.bind together (answers.roundTrip free counted))
    have same : (fun old => (forth old).isSome) = source.hasVertex (numberings rank).vertexCount :=
      funext fun old => Bool.eq_iff_iff.mpr (known rank old)
    rw [told, same]

/-- A rank that asks for a vertex twice, and for an id that no vertex has in between, gets the vertex back
twice, while the other rank asks for nothing. -/
theorem inquiries_exact_sample :
    ∃ run : Cluster.Run (Vector.ofFn fun rank : Fin 2 => do
        let numbering ← (Source.graph sampleEdges (fun _ => []) { sampleOptions with renumber := true }).number
          (Crew.stable fun _ => none) rank
        let found ← askNewIds ((Crew.stable fun _ => none).members rank) numbering (![[2, 7, 2], []] rank)
        askOldIds ((Crew.stable fun _ => none).members rank) numbering (found.filterMap id)),
      run.outcome 0 = some (.ok [some 2, some 2]) ∧ run.outcome 1 = some (.ok []) := by
  let crew : Crew 2 := Crew.stable fun _ => none
  let options : Options := { sampleOptions with renumber := true }
  let source : Source 2 := .graph sampleEdges (fun _ => []) options
  let ids : Fin 2 → List VertexId := ![[2, 7, 2], []]
  obtain ⟨constructing⟩ := Cluster.Run.exists_of_programs (Vector.ofFn fun rank : Fin 2 =>
    construct (crew.members rank) (sampleEdges rank) [] options)
  have accepted : Accepted sampleEdges (fun _ => []) options :=
    ⟨by decide, fun _ => List.nodup_nil, fun _ listed => absurd rfl listed⟩
  obtain ⟨constructed, constructs⟩ := exists_constructed crew 0 (fun _ => rfl) rfl
    (fun _ keeps => Bool.noConfusion keeps) (.of_few crew.lawful (by decide)) constructing accepted
  -- The graph is constructed, so the ranks have their parts of its numbering.
  have numbered : Together (fun rank => source.number crew rank)
      fun rank => (constructed rank).numbering :=
    .bind (constructing.together_iff.mp constructs) (.done fun _ => rfl)
  obtain ⟨made⟩ := Cluster.Run.exists_of_programs (Vector.ofFn fun rank : Fin 2 => source.number crew rank)
  obtain ⟨-, -, returns⟩ := inquiries_exact crew (by decide) (fun _ => rfl) source made _
    (made.together_iff.mpr numbered) ids
  obtain ⟨run⟩ := Cluster.Run.exists_of_programs (Vector.ofFn fun rank : Fin 2 => do
    let numbering ← source.number crew rank
    let found ← askNewIds (crew.members rank) numbering (ids rank)
    askOldIds (crew.members rank) numbering (found.filterMap id))
  -- Two of the three questions are for a vertex, and the other one is not handed on.
  have told := returns (fun _ => .of_few (by decide)) run
  exact ⟨run, told 0, told 1⟩

end DistGraph.Construction
