import DistGraph.Proofs.Adjacency.Rows
import DistGraph.Proofs.Construction.Verdict
import DistGraph.Proofs.Numbering.Bijection
import DistGraph.Proofs.Numbering.DegreeOrder

/-! New ids are in the order of the degrees that the final graph has. -/

namespace DistGraph.Construction

open DistGraph.Numbering (Agreement Assigned labelsOf newOf oldOf part)

variable {size : Nat} {members : Fin size → Member size}

section Rows

variable {options : Options} {records : Fin size → List EdgeRecord} {vertices : Fin size → List VertexId}
  {agreement : Agreement size} (lawful : ∀ rank, (members rank).sorter.Lawful)
  (assigned : Assigned members (tidied options members records) vertices options.order
    options.transposed agreement)
  {rank : Fin size} {old new : VertexId} (pair : (old, new) ∈ (agreement.parts rank).pairs)

include lawful assigned pair

/-- The records of a new id are the relabelled records of its old id. -/
theorem filter_relabelled :
    (everything (relabelled options members records agreement)).filter
        (fun record => record.major options.transposed = new) =
      ((everything (tidied options members records)).filter fun record =>
        record.major options.transposed = old).map (EdgeRecord.renamed (newOf agreement.parts)) := by
  have labels := assigned.labels lawful
  have kept : (old, new) ∈ everything fun rank => (agreement.parts rank).pairs :=
    mem_everything.mpr ⟨rank, pair⟩
  have all : everything (relabelled options members records agreement) =
      (everything (tidied options members records)).map (EdgeRecord.renamed (newOf agreement.parts)) :=
    (map_everything _ _).symm
  rw [all, List.filter_map]
  refine congrArg (List.map _) (List.filter_congr fun record member => ?_)
  rw [Function.comp_apply, EdgeRecord.major_renamed]
  apply decide_eq_decide.mpr
  -- The major endpoint has a new id of its own.
  have label : record.major options.transposed ∈ everything (labelsOf agreement.owned) := by
    refine (assigned.gathered.mem_everything_owned_iff lawful).mpr (.inl ⟨record, member, ?_⟩)
    cases options.transposed
    · exact .inl rfl
    · exact .inr rfl
  constructor
  · -- Equal new ids have equal old ones, and the other way around.
    intro same
    have back := labels.oldOf_newOf label
    change newOf (part (labelsOf agreement.owned) agreement.partition) _ = _ at same
    rw [same, labels.oldOf_eq kept] at back
    exact back.symm
  · intro same
    rw [same]
    exact labels.newOf_eq kept

/-- All records of a new id arrive at its owner. -/
theorem filter_arrived :
    (arrived options members records agreement rank).filter
        (fun record => record.major options.transposed = new) =
      (everything (relabelled options members records agreement)).filter
        fun record => record.major options.transposed = new := by
  have owned := (assigned.labels lawful).contains_of_mem_pairs pair
  rw [arrived, Grouping.bound, List.filter_filter]
  refine List.filter_congr fun record _ => ?_
  simp only [Placement.destination_byOwner_iff]
  -- A record with this major endpoint goes to the owner of it.
  by_cases same : record.major options.transposed = new
  · simp [same, owned]
  · simp [same]

/-- A new id has as many edges as there are records of its old id. -/
theorem degree_of_pair {views : Fin size → View size}
    (built : View.Built members (arrived options members records agreement) agreement.partition
      options.transposed options.segmentBudget views) :
    (views rank).degree new = ((everything (tidied options members records)).filter fun record =>
      record.major options.transposed = old).length := by
  rw [built.degree_eq lawful, filter_arrived lawful assigned pair, filter_relabelled lawful assigned pair,
    List.length_map]

end Rows

/-- Two new ids of a rank are in the order of the entries of their old ids. -/
theorem exists_precedes {options : Options} {records : Fin size → List EdgeRecord}
    {vertices : Fin size → List VertexId} {agreement : Agreement size}
    (lawful : ∀ rank, (members rank).sorter.Lawful)
    (assigned : Assigned members (tidied options members records) vertices options.order
      options.transposed agreement) {rank : Fin size} {first second : VertexId}
    (firstOwned : (agreement.partition.spanOf rank).contains first = true)
    (secondOwned : (agreement.partition.spanOf rank).contains second = true) (below : first < second) :
    ∃ left ∈ agreement.owned rank, ∃ right ∈ agreement.owned rank, left.Precedes options.order right ∧
      (left.vertex, first) ∈ (agreement.parts rank).pairs ∧
      (right.vertex, second) ∈ (agreement.parts rank).pairs := by
  have labels := assigned.labels lawful
  obtain ⟨leftOld, leftPair⟩ := labels.exists_mem_pairs firstOwned
  obtain ⟨rightOld, rightPair⟩ := labels.exists_mem_pairs secondOwned
  obtain ⟨i, leftInside, leftLabel, leftNew⟩ := Numbering.Labels.mem_pairs_iff.mp leftPair
  obtain ⟨j, rightInside, rightLabel, rightNew⟩ := Numbering.Labels.mem_pairs_iff.mp rightPair
  -- New ids follow the places of the entries.
  have places : i < j := by
    have numbers := UInt64.lt_iff_toNat_lt.mp below
    rw [leftNew, rightNew, labels.toNat_new leftInside, labels.toNat_new rightInside] at numbers
    omega
  simp only [labelsOf, List.length_map, List.getElem_map] at leftInside rightInside leftLabel rightLabel
  subst leftLabel rightLabel
  exact ⟨_, List.getElem_mem leftInside, _, List.getElem_mem rightInside,
    List.pairwise_iff_getElem.mp (assigned.gathered.owned_precedes lawful rank) i j leftInside rightInside
      places, leftPair, rightPair⟩

/-- Of two new ids of a rank, the lesser one has the greater degree in the graph that is constructed, or
the lesser old id if ids are put in order by id or the degrees are the same. -/
theorem newIds_ordered (crew : Crew size) (edges : Fin size → List Edge)
    (vertices : Fin size → List VertexId) (options : Options) (renumbers : options.renumber = true)
    (run : Cluster.Run (Vector.ofFn fun rank =>
      construct (crew.members rank) (edges rank) (vertices rank) options))
    (constructed : Fin size → Constructed size)
    (ends : ∀ rank, run.outcome rank = some (.ok (constructed rank))) (rank : Fin size)
    (first second : VertexId) (firstOwned : (constructed rank).view.range.contains first = true)
    (secondOwned : (constructed rank).view.range.contains second = true) (below : first < second) :
    ∃ firstOld secondOld, (constructed rank).numbering.oldId first = .ok firstOld ∧
      (constructed rank).numbering.oldId second = .ok secondOld ∧
      match options.order with
      | .degreeDescending =>
        (constructed rank).view.degree second < (constructed rank).view.degree first ∨
          (constructed rank).view.degree first = (constructed rank).view.degree second ∧
            firstOld < secondOld
      | .byId => firstOld < secondOld := by
  obtain ⟨-, agreement, renumbered, views, built, rfl⟩ :=
    (construct_computes_newIds crew rank edges vertices renumbers).together_iff.mp
      (run.together_iff.mp ends)
  have lawful := crew.lawful
  have assigned := renumbered.assigned
  have labels := assigned.labels lawful
  have range : (keptAnew agreement views rank).view.range = agreement.partition.spanOf rank :=
    built.range_eq rank
  rw [range] at firstOwned secondOwned
  obtain ⟨left, leftHeld, right, rightHeld, precedes, leftPair, rightPair⟩ :=
    exists_precedes lawful assigned firstOwned secondOwned below
  -- The entries tell the degrees that the view has.
  have leftDegree := (degree_of_pair lawful assigned leftPair built).trans
    (assigned.gathered.degree_eq lawful leftHeld).symm
  have rightDegree := (degree_of_pair lawful assigned rightPair built).trans
    (assigned.gathered.degree_eq lawful rightHeld).symm
  refine ⟨left.vertex, right.vertex, labels.oldId_of_mem_pairs leftPair,
    labels.oldId_of_mem_pairs rightPair, ?_⟩
  simp only [keptAnew, leftDegree, rightDegree]
  unfold DegreeShare.Precedes at precedes
  -- The entries were arranged by what is compared here.
  split
  · rename_i descending
    rw [descending] at precedes
    exact precedes.imp UInt64.lt_iff_toNat_lt.mp fun same => ⟨congrArg UInt64.toNat same.1, same.2⟩
  · rename_i ascending
    rw [ascending] at precedes
    exact precedes

/-- Two vertices that are at home on the same one of two ranks come in the order of their degrees. -/
theorem newIds_ordered_sample :
    ∃ (run : Cluster.Run (Vector.ofFn fun rank : Fin 2 =>
        construct ((Crew.stable fun _ => none).members rank) (sampleEdges rank)
          (![[2, 0], [1, 5]] rank) { sampleOptions with renumber := true }))
      (constructed : Fin 2 → Constructed 2) (first second firstOld secondOld : VertexId),
      (∀ rank, run.outcome rank = some (.ok (constructed rank))) ∧ first < second ∧
      (constructed 0).numbering.oldId first = .ok firstOld ∧
      (constructed 0).numbering.oldId second = .ok secondOld ∧
      ((constructed 0).view.degree second < (constructed 0).view.degree first ∨
        (constructed 0).view.degree first = (constructed 0).view.degree second ∧ firstOld < secondOld) := by
  let crew : Crew 2 := Crew.stable fun _ => none
  let options : Options := { sampleOptions with renumber := true }
  let listed : Fin 2 → List VertexId := ![[2, 0], [1, 5]]
  obtain ⟨run⟩ := Cluster.Run.exists_of_programs (Vector.ofFn fun rank : Fin 2 =>
    construct (crew.members rank) (sampleEdges rank) (listed rank) options)
  -- Every endpoint is listed, so that the edges and lists are accepted.
  have named : (endpoints (everything sampleEdges)).all (everything listed).contains = true := by decide
  have accepted : Accepted sampleEdges listed options := by
    refine ⟨by decide, fun _ => by decide, fun _ _ vertex member => ?_⟩
    exact List.contains_iff_mem.mp (List.all_eq_true.mp named vertex member)
  obtain ⟨constructed, ends⟩ := exists_constructed crew 0 (fun _ => rfl) rfl
    (fun _ keeps => Bool.noConfusion keeps) (.of_few crew.lawful (by decide)) run accepted
  have ordered := newIds_ordered crew sampleEdges listed options rfl run constructed ends 0
  obtain ⟨-, agreement, renumbered, views, built, rfl⟩ :=
    (construct_computes_newIds crew 0 sampleEdges listed (rfl : options.renumber = true)).together_iff.mp
      (run.together_iff.mp ends)
  have labels := renumbered.assigned.labels crew.lawful
  have range : (keptAnew agreement views 0).view.range = agreement.partition.spanOf 0 := built.range_eq 0
  rw [range] at ordered
  -- The vertices 0 and 5 are listed, and both are at home on the first rank.
  have label : ∀ old ∈ [(0 : VertexId), 5], old ∈ labelsOf agreement.owned 0 := by
    intro old member
    refine (renumbered.assigned.agreed.mem_labelsOf_iff crew.lawful).mpr ⟨?_, ?_⟩
    · refine Numbering.mem_named.mpr (.inr ?_)
      have inside : [(0 : VertexId), 5].all (everything listed).contains = true := by decide
      exact List.contains_iff_mem.mp (List.all_eq_true.mp inside old member)
    · have home : [(0 : VertexId), 5].all (fun id => homeRank id 2 = .ok 0) = true := by decide
      exact of_decide_eq_true (List.all_eq_true.mp home old member)
  have owned : ∀ old ∈ [(0 : VertexId), 5],
      (agreement.partition.spanOf 0).contains (newOf agreement.parts old) = true := fun old member =>
    labels.contains_of_mem_pairs (labels.mem_pairs_newOf (label old member))
  have back : ∀ old ∈ [(0 : VertexId), 5], oldOf agreement.parts (newOf agreement.parts old) = old :=
    fun old member => labels.oldOf_newOf (mem_everything.mpr ⟨0, label old member⟩)
  -- Which of the two comes first is left to the order of the degrees.
  rcases UInt64.lt_or_lt_of_ne (a := newOf agreement.parts 0) (b := newOf agreement.parts 5)
    (fun same => by
      have zero := back 0 (by simp)
      rw [same, back 5 (by simp)] at zero
      cases zero) with below | above
  · obtain ⟨firstOld, secondOld, known⟩ := ordered _ _ (owned 0 (by simp)) (owned 5 (by simp)) below
    exact ⟨run, _, _, _, firstOld, secondOld, ends, below, known⟩
  · obtain ⟨firstOld, secondOld, known⟩ := ordered _ _ (owned 5 (by simp)) (owned 0 (by simp)) above
    exact ⟨run, _, _, _, firstOld, secondOld, ends, above, known⟩

end DistGraph.Construction
