import DistGraph.Proofs.Adjacency.Pieces
import DistGraph.Proofs.Numbering.Asking
import DistGraph.Proofs.Numbering.Bijection

/-! Ranks find the ids that they keep for each other, in both directions. -/

namespace DistGraph.Numbering

variable {size : Nat}

/-- Whether some rank keeps a new id for an old one. -/
def Assigns (numberings : Fin size → Numbering size) (old new : VertexId) : Prop :=
  ∃ rank, (old, new) ∈ (numberings rank).pairs

/-- What the ranks may keep of a numbering: labels for their runs of new ids, or nothing at all. -/
inductive Kept : (numberings : Fin size → Numbering size) → Prop where
  /-- Every rank numbers its own labels. -/
  | labelled {labels : Fin size → List VertexId} {partition : Partition size}
      (labelled : Labels labels partition) : Kept (part labels partition)
  /-- Ids have not changed. -/
  | unchanged (partition : Partition size) : Kept fun rank => .identity partition rank

/-- Whether ids have changed. -/
def Changed (numberings : Fin size → Numbering size) : Prop :=
  -- Unchanged ids are known without asking.
  ∃ rank, (numberings rank).isIdentity = false

/-- The ranks that are asked for the new ids of old ones. -/
def newRoute (_ : Fin size) (old : VertexId) : Except Failure Nat :=
  assigner size old

/-- The ranks that are asked for the old ids of new ones. -/
def oldRoute (numberings : Fin size → Numbering size) (rank : Fin size) (new : VertexId) :
    Except Failure Nat :=
  .ok (((numberings rank).partition.owner? new).getD (numberings rank).rank)

/-- Whether two functions find what the ranks keep of a numbering, in either direction. -/
structure Finds (numberings : Fin size → Numbering size) (forth back : VertexId → Option VertexId) :
    Prop where
  /-- The first one finds the new ids of old ones. -/
  newIds : ∀ old new, forth old = some new ↔ Assigns numberings old new
  /-- The second one finds the old ids of new ones. -/
  oldIds : ∀ old new, back new = some old ↔ Assigns numberings old new
  /-- There is an old id for every new one. -/
  all : ∀ rank new, (back new).isSome ↔ new < (numberings rank).vertexCount

/-- The two ways to look a new id up agree where there is one. -/
theorem newId?_eq_some_iff {numbering : Numbering size} {old new : VertexId} :
    numbering.newId? old = some new ↔ numbering.newId old = .ok new := by
  rw [newId]
  cases numbering.newId? old <;> simp

/-- The two ways to look an old id up agree where there is one. -/
theorem oldId?_eq_some_iff {numbering : Numbering size} {old new : VertexId} :
    numbering.oldId? new = some old ↔ numbering.oldId new = .ok old := by
  rw [oldId]
  cases numbering.oldId? new <;> simp

section Told

variable {ranks : Nat} (members : Fin size → Member size) (ids : Fin size → List VertexId)
  {numberings : Fin size → Numbering ranks} (changed : ∀ rank, (numberings rank).isIdentity = false)
  {found : VertexId → Option VertexId}

include changed

/-- Ranks that ask for new ids are told what is known on the ranks that the old ones are at home on. -/
theorem askNewIds_computes
    (knows : ∀ owner old, assigner size old = .ok owner.val → (numberings owner).newId? old = found old) :
    Computes (fun rank => askNewIds (members rank) (numberings rank) (ids rank)) fun results =>
      Askable members newRoute ids ∧ results = fun rank => (ids rank).map found := by
  -- Ids have changed, so that they are asked for and not looked up in place.
  have stands : ∀ rank, askNewIds (members rank) (numberings rank) (ids rank) =
      ask (members rank) (newRoute rank) (numberings rank).newId? (ids rank) :=
    fun rank => if_neg (by rw [changed rank]; exact Bool.false_ne_true)
  simp only [stands]
  exact ask_computes (fun rank => (numberings rank).newId?) (fun _ owner old _ home => knows owner old home)
    fun rank old _ => exists_home rank old

/-- Ranks that ask for old ids are told what is known on the ranks that they take for the owners of the
new ones. -/
theorem askOldIds_computes (route : Fin size → VertexId → Fin size)
    (goes : ∀ rank new, ((numberings rank).partition.owner? new).getD (numberings rank).rank =
      (route rank new).val)
    (knows : ∀ rank new, (numberings (route rank new)).oldId? new = found new) :
    Computes (fun rank => askOldIds (members rank) (numberings rank) (ids rank)) fun results =>
      Askable members (fun rank new => .ok (route rank new).val) ids ∧
        results = fun rank => (ids rank).map found := by
  -- Ids have changed, so that they are asked for and not looked up in place.
  have stands : ∀ rank, askOldIds (members rank) (numberings rank) (ids rank) =
      ask (members rank) (fun new => .ok (route rank new).val) (numberings rank).oldId? (ids rank) := by
    intro rank
    simp only [← goes]
    exact if_neg (by rw [changed rank]; exact Bool.false_ne_true)
  simp only [stands]
  refine ask_computes (fun rank => (numberings rank).oldId?) (fun rank owner new _ sent => ?_)
    fun rank new _ => ⟨route rank new, rfl⟩
  rw [← knows rank new, Fin.ext (Except.ok.inj sent)]

end Told

section Labelled

variable {labels : Fin size → List VertexId} {partition : Partition size}
  (labelled : Labels labels partition)

/-- In a list with different keys, what is found stands next to its key. -/
theorem lookup_iff {pairs : List (VertexId × VertexId)} (once : (pairs.map Prod.fst).Nodup)
    {key value : VertexId} : pairs.lookup key = some value ↔ (key, value) ∈ pairs := by
  refine ⟨fun found => ?_, lookup_of_mem once⟩
  obtain ⟨before, after, rfl, -⟩ := List.lookup_eq_some_iff.mp found
  simp

variable (labels partition) in
/-- The new id that some rank keeps for an old one. -/
def newOf? (old : VertexId) : Option VertexId :=
  (everything fun rank => (part labels partition rank).pairs).lookup old

variable (labels partition) in
/-- The old id that some rank keeps for a new one. -/
def oldOf? (new : VertexId) : Option VertexId :=
  ((everything fun rank => (part labels partition rank).pairs).map Prod.swap).lookup new

variable (labels partition) in
/-- The ids that have a new one are the labels of all ranks. -/
theorem exists_assigns_part_iff {old : VertexId} :
    (∃ new, Assigns (part labels partition) old new) ↔ old ∈ everything labels := by
  rw [mem_everything]
  -- A pair is kept where its old id is a label.
  constructor
  · rintro ⟨new, rank, pair⟩
    exact ⟨rank, Labels.mem_map_fst_pairs_iff.mp (List.mem_map_of_mem (f := Prod.fst) pair)⟩
  · rintro ⟨rank, label⟩
    have kept : old ∈ (part labels partition rank).pairs.map Prod.fst :=
      Labels.mem_map_fst_pairs_iff.mpr label
    obtain ⟨⟨_, new⟩, pair, rfl⟩ := List.mem_map.mp kept
    exact ⟨new, rank, pair⟩

include labelled

/-- Labels are found with their new ids, and those fill the runs of all ranks. -/
theorem Labels.finds : Finds (part labels partition) (newOf? labels partition)
    (oldOf? labels partition) := by
  -- Reading pairs from behind finds old ids, as new ids are distinct too.
  have olds : ∀ old new, oldOf? labels partition new = some old ↔
      Assigns (part labels partition) old new := by
    intro old new
    rw [oldOf?, lookup_iff labelled.swapped_nodup, Assigns, ← mem_everything, List.mem_map]
    constructor
    · rintro ⟨⟨_, _⟩, member, same⟩
      cases same
      exact member
    · exact fun member => ⟨_, member, rfl⟩
  refine ⟨fun old new => ?_, olds, fun rank new => ?_⟩
  · rw [newOf?, lookup_iff labelled.olds_nodup, mem_everything, Assigns]
  · rw [Option.isSome_iff_exists]
    simp only [olds, Assigns]
    rw [vertexCount, part, ← Partition.owner?_isSome_iff, Option.isSome_iff_exists]
    constructor
    · rintro ⟨old, owner, pair⟩
      exact ⟨owner, Partition.owner?_eq_some_iff.mpr (labelled.contains_of_mem_pairs pair)⟩
    · rintro ⟨owner, owns⟩
      obtain ⟨old, pair⟩ := labelled.exists_mem_pairs (Partition.owner?_eq_some_iff.mp owns)
      exact ⟨old, owner, pair⟩

/-- The rank that an old id is at home on knows its new id, if there is one. -/
theorem Labels.newId?_eq {owner : Fin size} {old : VertexId} (home : assigner size old = .ok owner.val) :
    (part labels partition owner).newId? old = newOf? labels partition old := by
  -- A pair kept anywhere is kept at the home of its old id.
  refine Option.ext fun new => ?_
  rw [newId?_eq_some_iff, labelled.newId_eq_ok_iff, labelled.finds.newIds]
  refine ⟨fun pair => ⟨owner, pair⟩, fun ⟨rank, pair⟩ => ?_⟩
  have there := labelled.home rank old
    (Labels.mem_map_fst_pairs_iff.mp (List.mem_map_of_mem (f := Prod.fst) pair))
  rw [home, Except.ok.injEq] at there
  exact Fin.ext there ▸ pair

/-- The rank that is asked for a new id knows its old id, if there is one. -/
theorem Labels.oldId?_eq {rank owner : Fin size} {new : VertexId}
    (goes : oldRoute (part labels partition) rank new = .ok owner.val) :
    (part labels partition owner).oldId? new = oldOf? labels partition new := by
  -- A pair kept anywhere is kept by the owner of its new id.
  refine Option.ext fun old => ?_
  rw [oldId?_eq_some_iff, labelled.oldId_eq_ok_iff, labelled.finds.oldIds]
  refine ⟨fun pair => ⟨owner, pair⟩, fun ⟨keeper, pair⟩ => ?_⟩
  have owns : partition.owner? new = some keeper :=
    Partition.owner?_eq_some_iff.mpr (labelled.contains_of_mem_pairs pair)
  rw [oldRoute, part, owns, Except.ok.injEq] at goes
  exact Fin.ext goes ▸ pair

variable (members : Fin size → Member size) (ids : Fin size → List VertexId) in
/-- Ranks that ask for new ids are told them, unless they cannot send all questions and answers. -/
theorem Labels.askNewIds_computes :
    Computes (fun rank => askNewIds (members rank) (part labels partition rank) (ids rank)) fun results =>
      Askable members newRoute ids ∧ results = fun rank => (ids rank).map (newOf? labels partition) :=
  Numbering.askNewIds_computes members ids (fun _ => rfl) fun _ _ home => labelled.newId?_eq home

variable (members : Fin size → Member size) (ids : Fin size → List VertexId) in
/-- Ranks that ask for old ids are told them, unless they cannot send all questions and answers. -/
theorem Labels.askOldIds_computes :
    Computes (fun rank => askOldIds (members rank) (part labels partition rank) (ids rank)) fun results =>
      Askable members (oldRoute (part labels partition)) ids ∧
        results = fun rank => (ids rank).map (oldOf? labels partition) := by
  -- An id without an owner is asked of the asker itself, who does not have it either.
  refine Numbering.askOldIds_computes members ids (fun _ => rfl)
    (fun rank new => (partition.owner? new).getD rank) (fun _ _ => rfl) fun rank new => ?_
  have goes : oldRoute (part labels partition) rank new = .ok ((partition.owner? new).getD rank).val := rfl
  exact labelled.oldId?_eq goes

section Asked

variable {members : Fin size → Member size} (free : ∀ rank, (members rank).memory = none)
  {ids : Fin size → List VertexId}

include free

/-- Ranks that ask for new ids are told them. -/
theorem Labels.askNewIds_together (counted : Inquirable newRoute ids) :
    Together (fun rank => askNewIds (members rank) (part labels partition rank) (ids rank))
      fun rank => (ids rank).map (newOf? labels partition) :=
  (labelled.askNewIds_computes members ids).together_iff.mpr ⟨counted.askable free, rfl⟩

/-- Ranks that ask for old ids are told them. -/
theorem Labels.askOldIds_together (counted : Inquirable (oldRoute (part labels partition)) ids) :
    Together (fun rank => askOldIds (members rank) (part labels partition rank) (ids rank))
      fun rank => (ids rank).map (oldOf? labels partition) :=
  (labelled.askOldIds_computes members ids).together_iff.mpr ⟨counted.askable free, rfl⟩

end Asked

/-- The rank that is asked for the old id of a new one was asked for the new id before. -/
theorem Labels.oldRoute_iff {rank peer : Fin size} {old new : VertexId}
    (found : newOf? labels partition old = some new) :
    oldRoute (part labels partition) peer new = .ok rank.val ↔ newRoute peer old = .ok rank.val := by
  -- The keeper of the pair is both the home of the old id and the owner of the new one.
  obtain ⟨keeper, pair⟩ := (labelled.finds.newIds old new).mp found
  have owns : partition.owner? new = some keeper :=
    Partition.owner?_eq_some_iff.mpr (labelled.contains_of_mem_pairs pair)
  have home := labelled.home keeper old
    (Labels.mem_map_fst_pairs_iff.mp (List.mem_map_of_mem (f := Prod.fst) pair))
  rw [oldRoute, part, owns, newRoute, home]
  rfl

/-- A rank is asked for the old ids of just those new ids that it has told. -/
theorem Labels.questions_news (ids : Fin size → List VertexId) (rank peer : Fin size) :
    questions (oldRoute (part labels partition))
      (fun rank => (ids rank).filterMap (newOf? labels partition)) peer rank =
        (questions newRoute ids peer rank).filterMap (newOf? labels partition) := by
  unfold questions Grouping.bound
  rw [List.filter_filterMap, List.filterMap_filter]
  refine List.filterMap_congr fun old _ => ?_
  -- Ids without a new one are dropped on both sides.
  cases found : newOf? labels partition old with
  | none => simp
  | some new =>
    rw [Option.filter_some]
    simp only [decide_eq_true_eq, labelled.oldRoute_iff found]

/-- If old ids can be asked for, so can the new ids that ranks are told for them. -/
theorem Labels.inquirable_news {ids : Fin size → List VertexId} (counted : Inquirable newRoute ids) :
    Inquirable (oldRoute (part labels partition)) fun rank =>
      (ids rank).filterMap (newOf? labels partition) := by
  -- There are no more new ids than old ones, for each rank that is asked.
  refine ⟨fun rank => Nat.le_trans (List.length_filterMap_le ..) (counted.asks rank), fun rank => ?_⟩
  simp only [labelled.questions_news]
  exact Nat.le_trans (length_everything_mono fun peer => List.length_filterMap_le ..)
    (counted.asked rank)

end Labelled

section Unchanged

variable (partition : Partition size)

/-- Ids that have not changed are assigned to themselves, below the number of vertices. -/
theorem assigns_identity_iff {old new : VertexId} :
    Assigns (fun rank => .identity partition rank) old new ↔ old < partition.vertexCount ∧ old = new := by
  -- A rank keeps each id of its run next to itself.
  have kept : ∀ rank, (old, new) ∈ (identity partition rank).pairs ↔
      partition.owner? old = some rank ∧ old = new := by
    intro rank
    rw [Partition.owner?_eq_some_iff, ← Span.mem_toList]
    unfold pairs identity range
    rw [List.mem_map]
    constructor
    · rintro ⟨vertex, member, same⟩
      cases same
      exact ⟨member, rfl⟩
    · rintro ⟨member, rfl⟩
      exact ⟨old, member, rfl⟩
  simp only [Assigns, kept, exists_and_right, ← Option.isSome_iff_exists, Partition.owner?_isSome_iff]

/-- Every rank finds unchanged ids by itself. -/
theorem identity_finds (someone : Fin size) : Finds (fun rank => .identity partition rank)
    (identity partition someone).newId? (identity partition someone).oldId? := by
  -- All lookups compare with the number of vertices, which all ranks know.
  have found : ∀ old new : VertexId, (if old < partition.vertexCount then some old else none) = some new ↔
      old < partition.vertexCount ∧ old = new := by
    intro old new
    split <;> simp [*]
  refine ⟨fun old new => ?_, fun old new => ?_, fun rank new => ?_⟩
  · rw [assigns_identity_iff]
    exact found old new
  · rw [assigns_identity_iff]
    exact (found new old).trans ⟨fun ⟨below, same⟩ => ⟨same ▸ below, same.symm⟩,
      fun ⟨below, same⟩ => ⟨same ▸ below, same.symm⟩⟩
  · have told : (identity partition someone).oldId? new =
        if new < partition.vertexCount then some new else none := rfl
    rw [told]
    split <;> simp [*, vertexCount, identity]

end Unchanged

/-- Whether ranks that ask each other are told what is found. -/
structure Answers (numberings : Fin size → Numbering size) (forth back : VertexId → Option VertexId) :
    Prop extends Finds numberings forth back where
  /-- Ranks that ask for new ids are told them. -/
  forthTold : ∀ {members : Fin size → Member size} {ids : Fin size → List VertexId},
    (∀ rank, (members rank).memory = none) →
    (Changed numberings → Inquirable newRoute ids) →
    Together (fun rank => askNewIds (members rank) (numberings rank) (ids rank))
      fun rank => (ids rank).map forth
  /-- Ranks that ask for old ids are told them. -/
  backTold : ∀ {members : Fin size → Member size} {ids : Fin size → List VertexId},
    (∀ rank, (members rank).memory = none) →
    (Changed numberings → Inquirable (oldRoute numberings) ids) →
    Together (fun rank => askOldIds (members rank) (numberings rank) (ids rank))
      fun rank => (ids rank).map back
  /-- The new ids that ranks are told can be asked for. -/
  news : ∀ {ids : Fin size → List VertexId}, Changed numberings → Inquirable newRoute ids →
    Inquirable (oldRoute numberings) fun rank => (ids rank).filterMap forth

/-- Whatever the ranks keep of a numbering, they find it by asking each other. -/
theorem Kept.exists_answers {numberings : Fin size → Numbering size} (kept : Kept numberings)
    (someone : Fin size) : ∃ forth back, Answers numberings forth back := by
  -- Labels are asked for, and unchanged ids are looked up in place.
  cases kept with
  | labelled labelled =>
    exact ⟨_, _, labelled.finds,
      fun free counted => labelled.askNewIds_together free (counted ⟨someone, rfl⟩),
      fun free counted => labelled.askOldIds_together free (counted ⟨someone, rfl⟩),
      fun _ counted => labelled.inquirable_news counted⟩
  | unchanged partition =>
    exact ⟨_, _, identity_finds partition someone, fun _ _ => .done fun _ => rfl,
      fun _ _ => .done fun _ => rfl, fun ⟨_, changed⟩ => nomatch changed⟩

/-- Ranks that ask for new ids, and then for the old ids of those that they are told, are told the ids
that have a new one, in the order in which they asked. -/
theorem Answers.roundTrip {numberings : Fin size → Numbering size}
    {forth back : VertexId → Option VertexId} (answers : Answers numberings forth back)
    {members : Fin size → Member size} (free : ∀ rank, (members rank).memory = none)
    {ids : Fin size → List VertexId} (counted : Changed numberings → Inquirable newRoute ids) :
    Together (fun rank => askNewIds (members rank) (numberings rank) (ids rank) >>= fun found =>
        askOldIds (members rank) (numberings rank) (found.filterMap id))
      fun rank => ((ids rank).filter fun old => (forth old).isSome).map some := by
  -- What is found leads back to where it came from, and what is not found is not asked again.
  have returns : ∀ rank, ((ids rank).filterMap forth).map back =
      ((ids rank).filter fun old => (forth old).isSome).map some := by
    intro rank
    rw [List.map_filterMap, ← List.filterMap_eq_map, List.filterMap_filter]
    refine List.filterMap_congr fun old _ => ?_
    cases found : forth old with
    | none => rfl
    | some new =>
      have restored := (answers.oldIds old new).mpr ((answers.newIds old new).mp found)
      rw [Option.map_some, restored]
      rfl
  have told : ∀ rank, ((ids rank).map forth).filterMap id = (ids rank).filterMap forth :=
    fun rank => List.filterMap_map
  have second := answers.backTold free fun changed => answers.news changed (counted changed)
  simp only [returns] at second
  simp only [← told] at second
  exact (answers.forthTold free counted).bind second

end DistGraph.Numbering
