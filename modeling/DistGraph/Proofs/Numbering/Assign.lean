import DistGraph.Proofs.Edge.Renamed
import DistGraph.Proofs.Numbering.Degrees
import DistGraph.Proofs.Numbering.Resolve

/-! All vertices that the ranks name are numbered, and all records relabelled. -/

namespace DistGraph.Numbering

variable {size : Nat} {members : Fin size → Member size} {records : Fin size → List EdgeRecord}
  {vertices : Fin size → List VertexId} {order : IdOrder} {transposed : Bool}

/-- The rank on which the entries of a vertex meet. -/
def meetsAt (size : Nat) (entry : DegreeShare) : Except Failure Nat :=
  assigner size entry.vertex

/-- The vertices of entries. -/
def labelsOf (owned : Fin size → List DegreeShare) (rank : Fin size) : List VertexId :=
  (owned rank).map DegreeShare.vertex

variable (members order) in
/-- Whether entries are those that the ranks find when they merge what meets on them. -/
def Collected (named owned : Fin size → List DegreeShare) : Prop :=
  ∃ merged : Fin size → List DegreeShare,
    (∀ rank, Degrees.merge (members rank).sorter
      (Grouping.bound (meetsAt size) (everything named) rank) = .ok (merged rank)) ∧
    owned = fun rank => Degrees.arrange (members rank).sorter order (merged rank)

/-- What the ranks gather of the vertices that they number. -/
theorem gatherOwned_computes (named : Fin size → List DegreeShare) :
    Computes (fun rank => gatherOwned (members rank) order (named rank)) fun owned =>
      Routing.Deliverable members Wire.degree (meetsAt size) named ∧
        Collected members order named owned := by
  -- What has arrived is merged and put in order by each rank on its own.
  have merging : Computes (fun rank => (Program.ofExcept (Failure.ofDefect (Degrees.merge
      (members rank).sorter (Grouped.ofGroups fun peer =>
        Grouping.bound (meetsAt size) (named peer) rank).items)) :
      Program size Failure (List DegreeShare)) >>= fun merged =>
        pure (Degrees.arrange (members rank).sorter order merged)) (Collected members order named) := by
    refine Computes.bind _ ((Computes.ofExcept _).congr fun merged => ?_) fun merged _ => Computes.pure _
    simp
  exact (Routing.send_computes members Wire.degree (meetsAt size) named).afterIf _ fun _ => merging

/-- There is nothing to erase where nothing occurs twice. -/
theorem eraseDups_of_nodup {ids : List VertexId} (once : ids.Nodup) : ids.eraseDups = ids := by
  -- By induction on the ids, the first of which occurs nowhere among the others.
  induction ids with
  | nil => rfl
  | cons id ids ih =>
    obtain ⟨fresh, onceRest⟩ := List.nodup_cons.mp once
    have others : ids.filter (fun other => !other == id) = ids := by
      rw [List.filter_eq_self]
      intro other member
      have different : other ≠ id := fun same => fresh (same ▸ member)
      simp [different]
    rw [List.eraseDups_cons, others, ih onceRest]

/-- Different labels are numbered exactly if they fill the run of the rank. -/
theorem ofLabels_eq_ok_iff {partition : Partition size} {rank : Fin size} {ids : List VertexId}
    (once : ids.Nodup) {numbering : Numbering size} : ofLabels partition rank ids = .ok numbering ↔
      ids.length = (partition.countOf rank).toNat ∧ numbering = ⟨partition, rank, some ids⟩ := by
  -- The check counts different labels, and all of them are different.
  unfold ofLabels
  rw [eraseDups_of_nodup once]
  split
  · rename_i fills
    rw [Except.ok.injEq, eq_comm]
    exact (and_iff_right fills).symm
  · rename_i differs
    simp [differs]

/-- Different vertices are numbered exactly if they fill the run of the rank. -/
theorem ofLabels_labelsOf_eq_ok_iff {owned : Fin size → List DegreeShare} {partition : Partition size}
    {rank : Fin size} (once : (labelsOf owned rank).Nodup) {numbering : Numbering size} :
    ofLabels partition rank (labelsOf owned rank) = .ok numbering ↔
      (owned rank).length = (partition.countOf rank).toNat ∧
        numbering = part (labelsOf owned) partition rank := by
  rw [ofLabels_eq_ok_iff once, labelsOf, List.length_map]
  rfl

/-- Ranks whose vertices fill a partition number them in their order. -/
theorem number_computes (ranked : ∀ rank, (members rank).rank = rank) (someone : Fin size)
    {owned : Fin size → List DegreeShare} (once : ∀ rank, (labelsOf owned rank).Nodup) :
    Computes (fun rank => number (members rank) (owned rank)) fun numberings =>
      ∃ partition : Partition size,
        (Partition.ofCounts (Vector.ofFn fun rank => UInt64.ofNat (owned rank).length) = .ok partition ∧
          ∀ rank, (owned rank).length = (partition.countOf rank).toNat) ∧
        numberings = part (labelsOf owned) partition := by
  -- Labels are different, so that the check compares their number with the share of the rank.
  have labelled : ∀ partition : Partition size, ∀ rank numbering,
      Failure.ofDefect (ofLabels partition (members rank).rank (labelsOf owned rank)) = .ok numbering ↔
        (owned rank).length = (partition.countOf rank).toNat ∧
          numbering = part (labelsOf owned) partition rank := by
    intro partition rank numbering
    rw [Failure.ofDefect_eq_ok_iff, ranked, ofLabels_labelsOf_eq_ok_iff (once rank)]
  refine (Communicator.allGather_computes Wire.word _).mapError.after ?_
  refine (Computes.bind (fun partitions numberings => ∀ rank,
      Failure.ofDefect (ofLabels (partitions rank) (members rank).rank (labelsOf owned rank)) =
        .ok (numberings rank))
    (Computes.ofExcept fun _ => Failure.ofDefect (Partition.ofCounts
      (Vector.ofFn fun rank => UInt64.ofNat (owned rank).length)))
    fun partitions _ => Computes.ofExcept _).congr fun numberings => ?_
  simp only [labelled, Failure.ofDefect_eq_ok_iff]
  constructor
  · rintro ⟨partitions, shared, numbered⟩
    -- All ranks find the same partition.
    have same : ∀ rank, partitions rank = partitions someone := fun rank =>
      Except.ok.inj ((shared rank).symm.trans (shared someone))
    simp only [same] at numbered
    exact ⟨partitions someone, ⟨shared someone, fun rank => (numbered rank).1⟩,
      funext fun rank => (numbered rank).2⟩
  · rintro ⟨partition, ⟨shared, filled⟩, rfl⟩
    exact ⟨fun _ => partition, fun _ => shared, fun rank => ⟨filled rank, rfl⟩⟩

/-- A record of which both endpoints were asked for is relabelled. -/
theorem relabel_table {labels : Fin size → List VertexId} {partition : Partition size}
    {olds : Fin size → List VertexId} {rank : Fin size} {record : EdgeRecord}
    (routed : ∀ id ∈ olds rank, ∃ owner : Fin size, assigner size id = .ok owner.val)
    (src : record.src ∈ olds rank) (dst : record.dst ∈ olds rank) :
    relabel (table labels partition olds rank) record =
      .ok (record.renamed (newOf (part labels partition))) := by
  -- The table pairs each id that was asked for with its new one.
  have listed : ∀ id ∈ olds rank, (table labels partition olds rank).lookup id =
      some (newOf (part labels partition) id) :=
    fun id member => List.lookup_graph _ ((Routing.everything_bound_perm routed).symm.subset member)
  rw [relabel, listed _ src, listed _ dst]
  rfl

/-- Ranks name no more vertices than their records and lists have places. -/
theorem length_everything_named_le {named : Fin size → List DegreeShare}
    (lawful : ∀ rank, (members rank).sorter.Lawful)
    (names : ∀ rank,
      Degrees.named (members rank) (records rank) (vertices rank) transposed = .ok (named rank)) :
    (everything named).length ≤ 2 * (everything records).length + (everything vertices).length := by
  have fewer := length_everything_mono fun rank =>
    Degrees.length_merged_le (lawful rank) (Degrees.named_eq_ok_iff.mp (names rank)).2
  rwa [Degrees.length_everything_shares] at fewer

/-- Merging leaves no more entries than there were. -/
theorem Collected.length_everything_le {named owned : Fin size → List DegreeShare}
    (collected : Collected members order named owned)
    (lawful : ∀ rank, (members rank).sorter.Lawful) :
    (everything owned).length ≤ (everything named).length := by
  obtain ⟨merged, known, rfl⟩ := collected
  have homes : ∀ entry ∈ everything named, ∃ rank : Fin size, meetsAt size entry = .ok rank.val :=
    fun entry member => exists_home_of_mem member entry.vertex
  -- Sending keeps the number of entries and arranging does, and merging only lowers it.
  have fewer := length_everything_mono fun rank =>
    ((Degrees.arrange_perm (lawful rank) order (merged rank)).length_eq.trans_le
      (Degrees.length_merged_le (lawful rank) (known rank)))
  rwa [Routing.length_everything_bound homes] at fewer

variable (members records vertices order transposed) in
/-- Whether entries are of the vertices that ranks name, and of those that they number. -/
structure Entries (named owned : Fin size → List DegreeShare) : Prop where
  /-- Every rank names the vertices of its records and its list. -/
  names : ∀ rank,
    Degrees.named (members rank) (records rank) (vertices rank) transposed = .ok (named rank)
  /-- What ranks name is merged and put in order on the ranks that number it. -/
  merges : Collected members order named owned

variable (members records vertices order transposed) in
/-- Whether ranks gather the entries of the vertices that they number. -/
structure Gathered (named owned : Fin size → List DegreeShare) : Prop
    extends Entries members records vertices order transposed named owned where
  /-- Entries reach the ranks that number their vertices. -/
  meet : Routing.Deliverable members Wire.degree (meetsAt size) named

namespace Entries

variable {named owned : Fin size → List DegreeShare}
  (entries : Entries members records vertices order transposed named owned)
  (lawful : ∀ rank, (members rank).sorter.Lawful)

include entries lawful

/-- What a rank names are the endpoints of its records and the vertices of its list. -/
theorem mem_named_iff {rank : Fin size} {old : VertexId} : old ∈ labelsOf named rank ↔
    (∃ record ∈ records rank, old = record.src ∨ old = record.dst) ∨ old ∈ vertices rank := by
  have made := (Degrees.named_eq_ok_iff.mp (entries.names rank)).2
  rw [labelsOf, (Degrees.merged_of_merge (lawful rank) made).same, Degrees.mem_shares]

/-- A rank numbers the vertices that any rank names and that are at home on it. -/
theorem mem_owned_iff {rank : Fin size} {old : VertexId} : old ∈ labelsOf owned rank ↔
    old ∈ everything (labelsOf named) ∧ assigner size old = .ok rank.val := by
  obtain ⟨merged, made, rfl⟩ := entries.merges
  have arranged := (Degrees.arrange_perm (lawful rank) order (merged rank)).map DegreeShare.vertex
  have all : everything (labelsOf named) = (everything named).map DegreeShare.vertex :=
    (map_everything DegreeShare.vertex named).symm
  -- Arranging and merging keep the set of vertices, of which those at home here have arrived.
  rw [labelsOf, arranged.mem_iff, (Degrees.merged_of_merge (lawful rank) (made rank)).same, all]
  simp only [List.mem_map, Grouping.bound, List.mem_filter, meetsAt]
  constructor
  · rintro ⟨entry, ⟨member, goes⟩, rfl⟩
    exact ⟨⟨entry, member, rfl⟩, of_decide_eq_true goes⟩
  · rintro ⟨⟨entry, member, rfl⟩, goes⟩
    exact ⟨entry, ⟨member, decide_eq_true goes⟩, rfl⟩

/-- No rank numbers a vertex twice. -/
theorem once (rank : Fin size) : (labelsOf owned rank).Nodup := by
  -- Merging leaves one entry for each vertex, and arranging moves them.
  obtain ⟨merged, made, rfl⟩ := entries.merges
  have arranged := (Degrees.arrange_perm (lawful rank) order (merged rank)).map DegreeShare.vertex
  rw [labelsOf, arranged.nodup_iff]
  exact (Degrees.merged_of_merge (lawful rank) (made rank)).once

/-- Every vertex that any rank names is numbered. -/
theorem exists_owner {old : VertexId} (member : old ∈ everything (labelsOf named)) :
    ∃ rank, old ∈ labelsOf owned rank := by
  obtain ⟨rank, goes⟩ := exists_home_of_mem member old
  exact ⟨rank, (entries.mem_owned_iff lawful).mpr ⟨member, goes⟩⟩

/-- The ranks number the endpoints of all records and the listed vertices. -/
theorem mem_everything_owned_iff {old : VertexId} : old ∈ everything (labelsOf owned) ↔
    (∃ record ∈ everything records, old = record.src ∨ old = record.dst) ∨
      old ∈ everything vertices := by
  -- The ranks that own the ids have all that were named, and no others.
  have numbered : old ∈ everything (labelsOf owned) ↔ old ∈ everything (labelsOf named) := by
    constructor
    · intro member
      obtain ⟨rank, held⟩ := mem_everything.mp member
      exact ((entries.mem_owned_iff lawful).mp held).1
    · intro member
      exact mem_everything.mpr (entries.exists_owner lawful member)
  simp only [numbered, mem_everything, entries.mem_named_iff lawful]
  constructor
  · rintro ⟨rank, ⟨record, held, ends⟩ | listed⟩
    · exact .inl ⟨record, ⟨rank, held⟩, ends⟩
    · exact .inr ⟨rank, listed⟩
  · intro found
    rcases found with ⟨record, ⟨rank, held⟩, ends⟩ | ⟨rank, listed⟩
    · exact ⟨rank, .inl ⟨record, held, ends⟩⟩
    · exact ⟨rank, .inr listed⟩

/-- The vertices that are numbered are labels under a partition that they fill. -/
theorem labels {partition : Partition size}
    (filled : ∀ rank, (owned rank).length = (partition.countOf rank).toNat) :
    Labels (labelsOf owned) partition where
  once := entries.once lawful
  home rank old member := ((entries.mem_owned_iff lawful).mp member).2
  -- The partition counts the vertices of each rank, so that its run ends where they do.
  fill rank := by
    have ordered := partition.spanOf_start_le_stop rank
    have count : (partition.countOf rank).toNat =
        (partition.spanOf rank).stop.toNat - (partition.spanOf rank).start.toNat :=
      UInt64.toNat_sub_of_le _ _ (UInt64.le_iff_toNat_le.mpr ordered)
    rw [labelsOf, List.length_map, filled rank, count]
    omega

/-- Ranks can relabel their records with the new ids of what they have named. -/
theorem mapM_relabel_eq (partition : Partition size) (rank : Fin size) :
    (records rank).mapM (relabel (table (labelsOf owned) partition (labelsOf named) rank)) =
      .ok ((records rank).map (EdgeRecord.renamed (newOf (part (labelsOf owned) partition)))) := by
  refine mapM_eq_ok fun record member => relabel_table (fun id _ => exists_home rank id) ?_ ?_
  · exact (entries.mem_named_iff lawful).mpr (.inl ⟨record, member, .inl rfl⟩)
  · exact (entries.mem_named_iff lawful).mpr (.inl ⟨record, member, .inr rfl⟩)

end Entries

/-- What ranks agree on while they give out new ids. -/
structure Agreement (size : Nat) where
  /-- The vertices that every rank names. -/
  named : Fin size → List DegreeShare
  /-- The vertices that every rank numbers, in the order of their new ids. -/
  owned : Fin size → List DegreeShare
  /-- Which rank owns which new id. -/
  partition : Partition size

/-- The numbering that every rank keeps. -/
def Agreement.parts (agreement : Agreement size) : Fin size → Numbering size :=
  part (labelsOf agreement.owned) agreement.partition

variable (members records vertices order transposed) in
/-- Whether an agreement is one on the vertices that ranks name. -/
structure Agreed (agreement : Agreement size) : Prop where
  /-- Every vertex is put in order on the rank that numbers it. -/
  entries : Entries members records vertices order transposed agreement.named agreement.owned
  /-- All ranks find the same partition. -/
  shared : Partition.ofCounts (Vector.ofFn fun rank =>
    UInt64.ofNat (agreement.owned rank).length) = .ok agreement.partition
  /-- The vertices of every rank fill its run. -/
  filled : ∀ rank, (agreement.owned rank).length = (agreement.partition.countOf rank).toNat

/-- Ranks that agree have labels for all new ids. -/
theorem Agreed.labels {agreement : Agreement size}
    (agreed : Agreed members records vertices order transposed agreement)
    (lawful : ∀ rank, (members rank).sorter.Lawful) :
    Labels (labelsOf agreement.owned) agreement.partition :=
  agreed.entries.labels lawful agreed.filled

variable (members records vertices order transposed) in
/-- Whether an agreement is what ranks come to that number all vertices they name. -/
structure Assigned (agreement : Agreement size) : Prop where
  /-- Every vertex is put in order on the rank that numbers it. -/
  gathered : Gathered members records vertices order transposed agreement.named agreement.owned
  /-- All ranks find the same partition. -/
  shared : Partition.ofCounts (Vector.ofFn fun rank =>
    UInt64.ofNat (agreement.owned rank).length) = .ok agreement.partition
  /-- The vertices of every rank fill its run. -/
  filled : ∀ rank, (agreement.owned rank).length = (agreement.partition.countOf rank).toNat
  /-- Every rank is told the new ids that it asks for. -/
  answerable : Answerable members (labelsOf agreement.named)

/-- Ranks that have been assigned new ids have agreed on them. -/
theorem Assigned.agreed {agreement : Agreement size}
    (assigned : Assigned members records vertices order transposed agreement) :
    Agreed members records vertices order transposed agreement :=
  ⟨assigned.gathered.toEntries, assigned.shared, assigned.filled⟩

/-- Ranks that number all vertices have labels for all new ids. -/
theorem Assigned.labels {agreement : Agreement size}
    (assigned : Assigned members records vertices order transposed agreement)
    (lawful : ∀ rank, (members rank).sorter.Lawful) :
    Labels (labelsOf agreement.owned) agreement.partition :=
  assigned.agreed.labels lawful

/-- How a rank relabels its records with what it has asked for. -/
def relabelAll (self : Member size) (numbering : Numbering size) (named : List DegreeShare)
    (records : List EdgeRecord) : Program size Failure (Numbering size × List EdgeRecord) := do
  -- Every vertex that was named is asked for.
  let table ← resolve self numbering (named.map DegreeShare.vertex)
  let relabelled ← Failure.ofDefect (records.mapM (relabel table))
  return (numbering, relabelled)

/-- Ranks name vertices, gather their entries, number those that they own and relabel their records. -/
theorem assign_eq (self : Member size) (records : List EdgeRecord) (vertices : List VertexId)
    (order : IdOrder) (transposed : Bool) : assign self records vertices order transposed =
      (Program.ofExcept (Degrees.named self records vertices transposed) >>= fun named =>
        gatherOwned self order named >>= fun owned =>
        number self owned >>= fun numbering => relabelAll self numbering named records) := rfl

section Steps

variable (lawful : ∀ rank, (members rank).sorter.Lawful) {named owned : Fin size → List DegreeShare}
  (gathered : Gathered members records vertices order transposed named owned)

include lawful gathered

/-- Once all vertices are numbered, the ranks learn the new ids of all their records. -/
theorem relabelAll_computes {partition : Partition size}
    (filled : ∀ rank, (owned rank).length = (partition.countOf rank).toNat) :
    Computes (fun rank => relabelAll (members rank) (part (labelsOf owned) partition rank)
        (named rank) (records rank)) fun results =>
      Answerable members (labelsOf named) ∧ results = fun rank =>
        (part (labelsOf owned) partition rank,
          (records rank).map (EdgeRecord.renamed (newOf (part (labelsOf owned) partition)))) := by
  -- Relabelling is a lookup in what was resolved, which covers all endpoints.
  refine (resolve_computes (gathered.labels lawful filled) fun id member =>
    gathered.exists_owner lawful member).afterIf _ fun _ => ?_
  have relabelled := gathered.mapM_relabel_eq lawful partition
  simp only [relabelled]
  exact Computes.after (Computes.pure _) (Computes.pure _)

/-- Vertices that were gathered are different, so that all of them get new ids if they fill a partition. -/
theorem number_relabelAll_computes (ranked : ∀ rank, (members rank).rank = rank) (someone : Fin size) :
    Computes (fun rank => number (members rank) (owned rank) >>= fun numbering =>
        relabelAll (members rank) numbering (named rank) (records rank)) fun results =>
      ∃ partition, Assigned members records vertices order transposed ⟨named, owned, partition⟩ ∧
        results = fun rank => (part (labelsOf owned) partition rank,
          (records rank).map (EdgeRecord.renamed (newOf (part (labelsOf owned) partition)))) := by
  -- That the vertices fill the partition is known only once they are numbered.
  refine (Computes.afterSome _ (number_computes ranked someone (gathered.once lawful))
    fun partition agreed => relabelAll_computes lawful gathered agreed.2).congr fun results => ?_
  constructor
  · intro ⟨partition, ⟨shared, filled⟩, answerable, same⟩
    exact ⟨partition, ⟨gathered, shared, filled, answerable⟩, same⟩
  · intro ⟨partition, assigned, same⟩
    exact ⟨partition, ⟨assigned.shared, assigned.filled⟩, assigned.answerable, same⟩

end Steps

/-- What the ranks come to when they number all vertices and relabel their records. -/
theorem assign_computes (ranked : ∀ rank, (members rank).rank = rank)
    (lawful : ∀ rank, (members rank).sorter.Lawful) (someone : Fin size) :
    Computes (fun rank => assign (members rank) (records rank) (vertices rank) order transposed)
      fun results => ∃ agreement,
        Assigned members records vertices order transposed agreement ∧
        results = fun rank =>
          (agreement.parts rank, (records rank).map (EdgeRecord.renamed (newOf agreement.parts))) := by
  -- The steps are taken one by one, and what each of them settles is part of the agreement.
  simp only [assign_eq]
  refine (Computes.bind _ (Computes.ofExcept fun rank =>
    Degrees.named (members rank) (records rank) (vertices rank) transposed) fun named names =>
    Computes.bind _ (gatherOwned_computes named) fun owned met =>
      number_relabelAll_computes lawful ⟨⟨names, met.2⟩, met.1⟩ ranked someone).congr fun results => ?_
  constructor
  · intro ⟨named, _, owned, _, partition, assigned, same⟩
    exact ⟨⟨named, owned, partition⟩, assigned, same⟩
  · intro ⟨agreement, assigned, same⟩
    have gathered := assigned.gathered
    exact ⟨agreement.named, gathered.names, agreement.owned, ⟨gathered.meet, gathered.merges⟩,
      agreement.partition, assigned, same⟩

/-- Vertices fill a partition if they can be counted with a word. -/
theorem exists_filled (someone : Fin size) {owned : Fin size → List DegreeShare}
    (fits : (everything owned).length < UInt64.size) : ∃ partition : Partition size,
    Partition.ofCounts (Vector.ofFn fun rank => UInt64.ofNat (owned rank).length) = .ok partition ∧
      ∀ rank, (owned rank).length = (partition.countOf rank).toNat := by
  let counts := Vector.ofFn fun rank => UInt64.ofNat (owned rank).length
  -- The counts are words, and so is their sum.
  have sum : (counts.toList.map UInt64.toNat).sum = (everything owned).length := by
    rw [Vector.toList_ofFn]
    exact sum_counts_eq fits
  obtain ⟨partition, shared⟩ :=
    Partition.exists_ofCounts (Nat.ne_of_gt someone.pos) (sum.trans_lt fits)
  refine ⟨partition, shared, fun rank => ?_⟩
  have share := Nat.lt_of_le_of_lt (length_le_everything owned rank) fits
  rw [Partition.countOf_ofCounts shared rank, Fin.getElem_fin, Vector.getElem_ofFn]
  exact (UInt64.toNat_ofNat_of_lt' share).symm

section Merges

variable (lawful : ∀ rank, (members rank).sorter.Lawful)
  (fits : (everything records).length < UInt64.size)

include lawful fits

/-- Degrees of vertices add up if a word counts all records. -/
theorem exists_merge_shares (rank : Fin size) : ∃ named,
    Degrees.merge (members rank).sorter (Degrees.shares (records rank) (vertices rank) transposed) =
      .ok named := by
  -- The total is the number of records of the rank, and a part of all records.
  have share := length_le_everything records rank
  refine Degrees.exists_merge (lawful rank) ?_
  rw [Degrees.total_shares]
  omega

/-- So do those that meet on a rank: merging keeps the total, of which every rank is sent a part. -/
theorem exists_merge_met {named : Fin size → List DegreeShare}
    (names : ∀ rank,
      Degrees.named (members rank) (records rank) (vertices rank) transposed = .ok (named rank))
    (rank : Fin size) : ∃ merged,
    Degrees.merge (members rank).sorter (Grouping.bound (meetsAt size) (everything named) rank) =
      .ok merged := by
  have made := fun rank => (Degrees.named_eq_ok_iff.mp (names rank)).2
  -- The entries of all ranks together have the total of all records.
  have whole := Degrees.total_everything fun rank =>
    (Degrees.merged_of_merge (lawful rank) (made rank)).total.trans Degrees.total_shares
  have part : Degrees.total (Grouping.bound (meetsAt size) (everything named) rank) ≤ _ :=
    Degrees.total_filter_le _ (everything named)
  exact Degrees.exists_merge (lawful rank) (by omega)

end Merges

section Holds

variable {number : Nat} (lawful : ∀ rank, (members rank).sorter.Lawful)
  (holds : ∀ rank, (members rank).Holds number)
  (few : 2 * (everything records).length + (everything vertices).length ≤ number)

include lawful holds few

/-- Ranks that can hold an entry for every endpoint and every listed vertex can name them. -/
theorem exists_named : ∃ named : Fin size → List DegreeShare, ∀ rank,
    Degrees.named (members rank) (records rank) (vertices rank) transposed = .ok (named rank) := by
  -- Each rank's entries are among those that it can hold.
  have each : ∀ rank, ∃ named,
      Degrees.named (members rank) (records rank) (vertices rank) transposed = .ok named := by
    intro rank
    have ownRecords := length_le_everything records rank
    have ownVertices := length_le_everything vertices rank
    have most : Count.most < UInt64.size := by decide
    have counted := (holds rank).counts
    obtain ⟨named, made⟩ := @exists_merge_shares _ _ records vertices transposed lawful (by omega) rank
    have small : Wire.degree.bytes ≤ HalfEdge.cellBytes := Wire.bytes_le Wire.degree
    exact ⟨named, Degrees.named_eq_ok_iff.mpr
      ⟨(holds rank).makeRoom small (by omega), made⟩⟩
  choose named known using each
  exact ⟨named, known⟩

/-- They can gather the entries on the ranks that number the vertices. -/
theorem exists_gathered (order : IdOrder) : ∃ named owned : Fin size → List DegreeShare,
    Gathered members records vertices order transposed named owned ∧
      (everything named).length ≤ number ∧ (everything owned).length ≤ number := by
  obtain ⟨named, names⟩ := @exists_named _ members records vertices transposed _ lawful holds few
  have fewNamed := Nat.le_trans (length_everything_named_le lawful names) few
  have homes : ∀ entry ∈ everything named, ∃ rank : Fin size, meetsAt size entry = .ok rank.val :=
    fun entry member => exists_home_of_mem member entry.vertex
  -- No rank is sent more entries than there are places altogether.
  have meet : Routing.Deliverable members Wire.degree (meetsAt size) named :=
    Routing.Deliverable.of_holds homes fewNamed holds
  have merges : ∀ rank, ∃ merged, Degrees.merge (members rank).sorter
      (Grouping.bound (meetsAt size) (everything named) rank) = .ok merged := by
    intro rank
    have counted := (holds rank).counts
    have most : Count.most < UInt64.size := by decide
    exact exists_merge_met lawful (by omega) names rank
  choose merged known using merges
  have collected : Collected members order named _ := ⟨merged, known, rfl⟩
  exact ⟨named, _, ⟨⟨names, collected⟩, meet⟩, fewNamed,
    Nat.le_trans (collected.length_everything_le lawful) fewNamed⟩

/-- They can agree on new ids. -/
theorem exists_assigned (order : IdOrder) (someone : Fin size) :
    ∃ agreement, Assigned members records vertices order transposed agreement := by
  obtain ⟨named, owned, gathered, fewNamed, fewOwned⟩ :=
    @exists_gathered _ members records vertices transposed _ lawful holds few order
  have counted := (holds someone).counts
  have most : Count.most < UInt64.size := by decide
  obtain ⟨partition, shared, filled⟩ := exists_filled someone (Nat.lt_of_le_of_lt fewOwned (by omega))
  -- The questions are the ids that are named, of which there are few enough.
  have answerable : Answerable members (labelsOf named) := by
    refine Answerable.of_holds ?_ holds
    have all : everything (labelsOf named) = (everything named).map DegreeShare.vertex :=
      (map_everything DegreeShare.vertex named).symm
    rw [all, List.length_map]
    exact fewNamed
  exact ⟨⟨named, owned, partition⟩, gathered, shared, filled, answerable⟩

end Holds

end DistGraph.Numbering
