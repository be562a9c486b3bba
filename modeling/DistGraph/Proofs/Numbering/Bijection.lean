import DistGraph.Proofs.Numbering.InStep

/-! Giving out new ids matches all ids that the ranks name with all new ids, one with one. -/

namespace DistGraph.Numbering

variable {size : Nat}

namespace Labels

variable {labels : Fin size → List VertexId} {partition : Partition size}
  (labelled : Labels labels partition) {rank : Fin size} {old new : VertexId}

/-- The old ids that a rank keeps are its labels. -/
theorem mem_map_fst_pairs_iff :
    old ∈ (part labels partition rank).pairs.map Prod.fst ↔ old ∈ labels rank := by
  rw [map_fst_pairs]

/-- An old id that a rank does not keep is not known there. -/
theorem newId_eq_error (unknown : old ∉ (part labels partition rank).pairs.map Prod.fst) :
    (part labels partition rank).newId old = .error (.unknownId old) := by
  rw [mem_map_fst_pairs_iff] at unknown
  simp [newId, newId?, part, List.idxOf?_eq_none_iff.mpr unknown]

/-- A new id outside of the run of a rank is not known there. -/
theorem oldId_eq_error (outside : (partition.spanOf rank).contains new = false) :
    (part labels partition rank).oldId new = .error (.unknownId new) := by
  have found : (part labels partition rank).oldId? new = none :=
    if_neg (by rw [range, part, outside]; exact Bool.false_ne_true)
  rw [oldId, found]

include labelled

/-- A rank finds the new id that it keeps next to an old one. -/
theorem newId_eq_ok_iff : (part labels partition rank).newId old = .ok new ↔
    (old, new) ∈ (part labels partition rank).pairs := by
  -- The rank searches its labels, and knows nothing of any other id.
  by_cases member : old ∈ labels rank
  · have pair := labelled.mem_pairs_newOf member
    rw [newId, newId?_part labelled member, Except.ok.injEq]
    constructor
    · rintro rfl
      exact pair
    · intro other
      exact labelled.newOf_eq (mem_everything.mpr ⟨rank, other⟩)
  · rw [newId_eq_error fun kept => member (mem_map_fst_pairs_iff.mp kept)]
    simp only [reduceCtorEq, false_iff]
    intro pair
    exact member (mem_map_fst_pairs_iff.mp (List.mem_map_of_mem pair))

/-- The new ids of a rank are those of its run. -/
theorem mem_map_snd_pairs_iff : new ∈ (part labels partition rank).pairs.map Prod.snd ↔
    (partition.spanOf rank).contains new = true := by
  -- The labels fill the run, so that every id of it is given out.
  constructor
  · intro member
    obtain ⟨⟨old, _⟩, pair, rfl⟩ := List.mem_map.mp member
    exact labelled.contains_of_mem_pairs pair
  · intro owned
    obtain ⟨old, pair⟩ := labelled.exists_mem_pairs owned
    exact List.mem_map.mpr ⟨_, pair, rfl⟩

/-- The old id of a new one stands at its place in the run of the rank. -/
theorem oldId_of_mem_pairs (pair : (old, new) ∈ (part labels partition rank).pairs) :
    (part labels partition rank).oldId new = .ok old := by
  have owned := labelled.contains_of_mem_pairs pair
  obtain ⟨i, inside, rfl, rfl⟩ := mem_pairs_iff.mp pair
  have start := labelled.toNat_new inside
  -- The distance of the new id from the start of the run is the position of its label.
  have place : ((partition.spanOf rank).start + UInt64.ofNat i - (partition.spanOf rank).start).toNat =
      i := by
    rw [UInt64.toNat_sub_of_le, start]
    · omega
    · rw [UInt64.le_iff_toNat_le, start]
      omega
  have found : (part labels partition rank).oldId? ((partition.spanOf rank).start + UInt64.ofNat i) =
      (labels rank)[((partition.spanOf rank).start + UInt64.ofNat i -
        (partition.spanOf rank).start).toNat]? := if_pos owned
  rw [place, List.getElem?_eq_getElem inside] at found
  rw [oldId, found]

/-- A rank finds the old id that it keeps next to a new one. -/
theorem oldId_eq_ok_iff : (part labels partition rank).oldId new = .ok old ↔
    (old, new) ∈ (part labels partition rank).pairs := by
  refine ⟨fun found => ?_, labelled.oldId_of_mem_pairs⟩
  -- Outside its run a rank answers nothing, and inside it every id has a label.
  cases owned : (partition.spanOf rank).contains new with
  | false =>
    rw [oldId_eq_error owned] at found
    cases found
  | true =>
    obtain ⟨kept, pair⟩ := labelled.exists_mem_pairs owned
    rw [labelled.oldId_of_mem_pairs pair, Except.ok.injEq] at found
    exact found ▸ pair

end Labels

/-- Whether the ranks keep a new id for each of some ids, and for no other. -/
structure Complete (ids : List VertexId) (numberings : Fin size → Numbering size) : Prop where
  /-- All ranks share the new ids in the same way, and there are as many of them as ids. -/
  shared : ∃ partition : Partition size, partition.vertexCount.toNat = ids.dedup.length ∧
    ∀ rank, (numberings rank).partition = partition ∧ (numberings rank).rank = rank
  /-- A rank keeps the ids that are at home on it. -/
  keeps : ∀ rank old, old ∈ (numberings rank).pairs.map Prod.fst ↔
    old ∈ ids ∧ homeRank old size = .ok rank.val
  /-- Their new ids are those of its run. -/
  fills : ∀ rank new, new ∈ (numberings rank).pairs.map Prod.snd ↔
    (numberings rank).range.contains new = true
  /-- No old id is kept twice. -/
  olds : ((everything fun rank => (numberings rank).pairs).map Prod.fst).Nodup
  /-- No new id is kept twice. -/
  news : ((everything fun rank => (numberings rank).pairs).map Prod.snd).Nodup
  /-- A rank tells the new id that it keeps for an old one. -/
  newId : ∀ rank old new, (numberings rank).newId old = .ok new ↔ (old, new) ∈ (numberings rank).pairs
  /-- A rank tells the old id that it keeps for a new one. -/
  oldId : ∀ rank old new, (numberings rank).oldId new = .ok old ↔ (old, new) ∈ (numberings rank).pairs
  /-- A rank knows no other old ids. -/
  unknownOld : ∀ rank old, old ∉ (numberings rank).pairs.map Prod.fst →
    (numberings rank).newId old = .error (.unknownId old)
  /-- A rank knows no other new ids. -/
  unknownNew : ∀ rank new, (numberings rank).range.contains new = false →
    (numberings rank).oldId new = .error (.unknownId new)

section Agreed

variable {members : Fin size → Member size} {records : Fin size → List EdgeRecord}
  {vertices : Fin size → List VertexId} {order : IdOrder} {transposed : Bool}
  {agreement : Agreement size}
  (agreed : Agreed members records vertices order transposed agreement)
  (lawful : ∀ rank, (members rank).sorter.Lawful)

include agreed lawful

/-- The labels of all ranks are the ids that the ranks name. -/
theorem Agreed.mem_labels_iff {old : VertexId} : old ∈ everything (labelsOf agreement.owned) ↔
    old ∈ Construction.named (everything records) (everything vertices) := by
  rw [agreed.entries.mem_everything_owned_iff lawful, mem_named]

/-- Every id that the ranks name is numbered once. -/
theorem Agreed.labels_perm : (everything (labelsOf agreement.owned)).Perm
    (Construction.named (everything records) (everything vertices)).dedup := by
  refine (List.perm_ext_iff_of_nodup (agreed.labels lawful).nodup_everything
    (List.nodup_dedup _)).mpr fun old => ?_
  rw [agreed.mem_labels_iff lawful, List.mem_dedup]

/-- There are as many new ids as different ids. -/
theorem Agreed.vertexCount_eq : agreement.partition.vertexCount.toNat =
    (Construction.named (everything records) (everything vertices)).dedup.length := by
  rw [(agreed.labels lawful).vertexCount_eq, (agreed.labels_perm lawful).length_eq]

/-- A rank numbers the ids that are at home on it. -/
theorem Agreed.mem_labelsOf_iff {rank : Fin size} {old : VertexId} :
    old ∈ labelsOf agreement.owned rank ↔
      old ∈ Construction.named (everything records) (everything vertices) ∧
        homeRank old size = .ok rank.val := by
  have home := (agreed.labels lawful).home
  constructor
  · intro member
    exact ⟨(agreed.mem_labels_iff lawful).mp (mem_everything.mpr ⟨rank, member⟩),
      Failure.ofDefect_eq_ok_iff.mp (home rank old member)⟩
  · intro ⟨named, goes⟩
    -- The rank that keeps a label is its home, of which there is only one.
    obtain ⟨owner, member⟩ := mem_everything.mp ((agreed.mem_labels_iff lawful).mpr named)
    have same := Failure.ofDefect_eq_ok_iff.mp (home owner old member)
    rw [goes, Except.ok.injEq] at same
    exact Fin.ext same ▸ member

/-- Ranks that agree keep a new id for each id that they name. -/
theorem Agreed.complete : Complete (Construction.named (everything records) (everything vertices))
    agreement.parts := by
  -- All parts follow from labels that are different, at home on their ranks and fill their runs.
  have labelled := agreed.labels lawful
  constructor
  · exact ⟨agreement.partition, agreed.vertexCount_eq lawful, fun rank => ⟨rfl, rfl⟩⟩
  · intro rank old
    rw [Agreement.parts, Labels.mem_map_fst_pairs_iff, agreed.mem_labelsOf_iff lawful]
  · exact fun rank new => labelled.mem_map_snd_pairs_iff
  · exact labelled.olds_nodup
  · exact labelled.news_nodup
  · exact fun rank old new => labelled.newId_eq_ok_iff
  · exact fun rank old new => labelled.oldId_eq_ok_iff
  · exact fun rank old => Labels.newId_eq_error
  · exact fun rank new => Labels.oldId_eq_error

end Agreed

variable {records : Fin size → List EdgeRecord} {vertices : Fin size → List VertexId}

/-- Ranks without a limit that can count what they exchange all number what they name, and replace
the ids in their records by what the rank that an id is at home on keeps for it. -/
theorem assign_bijective (crew : Crew size) (occupied : 0 < size)
    (free : ∀ rank, (crew.members rank).memory = none) (countable : Countable records vertices)
    (order : IdOrder) (transposed : Bool)
    (run : Cluster.Run (Vector.ofFn fun rank =>
      assign (crew.members rank) (records rank) (vertices rank) order transposed)) :
    ∃ numberings : Fin size → Numbering size,
      (∀ rank, run.outcome rank = some (.ok (numberings rank, (records rank).map fun record =>
        { record with src := newOf numberings record.src, dst := newOf numberings record.dst }))) ∧
      Complete (Construction.named (everything records) (everything vertices)) numberings ∧
      ∀ old ∈ Construction.named (everything records) (everything vertices),
        ∃ home : Fin size, homeRank old size = .ok home.val ∧
          (numberings home).newId old = .ok (newOf numberings old) := by
  let someone : Fin size := ⟨0, occupied⟩
  -- Unlimited ranks stay in step up to the agreement, and its parts are what they keep.
  obtain ⟨agreement, leads⟩ := assign_leads crew.lawful crew.ranked someone fun _ => countable
  have ends := run.succeeds free leads
  have agreed := (ends someone).1.1
  have complete := agreed.complete crew.lawful
  refine ⟨agreement.parts, fun rank => (ends rank).2, complete, fun old named => ?_⟩
  obtain ⟨home, goes⟩ := exists_home someone old
  have member := (agreed.mem_labelsOf_iff crew.lawful).mpr ⟨named, Failure.ofDefect_eq_ok_iff.mp goes⟩
  exact ⟨home, Failure.ofDefect_eq_ok_iff.mp goes, (complete.newId home old _).mpr
    ((agreed.labels crew.lawful).mem_pairs_newOf member)⟩

/-- Two ranks give new ids to the four ids that they name. -/
theorem assign_bijective_sample :
    ∃ (run : Cluster.Run (Vector.ofFn fun rank : Fin 2 => assign ((Crew.stable fun _ => none).members rank)
        (EdgeRecord.ofEdges rank (Construction.sampleEdges rank)) (![[2, 0], [1, 5]] rank)
        .degreeDescending false))
      (numberings : Fin 2 → Numbering 2),
      (∀ rank, ∃ relabelled, run.outcome rank = some (.ok (numberings rank, relabelled))) ∧
      ∀ rank, (numberings rank).vertexCount = 4 := by
  let records : Fin 2 → List EdgeRecord := fun rank => EdgeRecord.ofEdges rank (Construction.sampleEdges rank)
  let listed : Fin 2 → List VertexId := ![[2, 0], [1, 5]]
  obtain ⟨run⟩ := Cluster.Run.exists_of_programs (Vector.ofFn fun rank : Fin 2 =>
    assign ((Crew.stable fun _ => none).members rank) (records rank) (listed rank) .degreeDescending false)
  have countable : Countable records listed := Countable.of_few (by decide)
  obtain ⟨numberings, ends, complete, -⟩ := assign_bijective (Crew.stable fun _ => none) (by decide)
    (fun _ => rfl) countable .degreeDescending false run
  obtain ⟨partition, count, shared⟩ := complete.shared
  -- The ids that are named are decided, and the partition counts them.
  have four : (Construction.named (everything records) (everything listed)).dedup.length = 4 := by decide
  refine ⟨run, numberings, fun rank => ⟨_, ends rank⟩, fun rank => ?_⟩
  rw [vertexCount, (shared rank).1, ← UInt64.toNat_inj, count, four]
  rfl

end DistGraph.Numbering
