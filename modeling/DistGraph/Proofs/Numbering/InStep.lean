import DistGraph.Proofs.Construction.VertexCount
import DistGraph.Proofs.Numbering.Assign
import DistGraph.Proofs.Routing.InStep

/-! Ranks stay in step while they give out new ids. -/

namespace DistGraph.Numbering

variable {size : Nat} {members : Fin size → Member size} {records : Fin size → List EdgeRecord}
  {vertices : Fin size → List VertexId} {order : IdOrder} {transposed : Bool}

/-- Whether ranks can count and store what they tell each other while they give out new ids. -/
structure Countable (records : Fin size → List EdgeRecord) (vertices : Fin size → List VertexId) :
    Prop where
  /-- Every id that a rank names can be told to the rank that it is at home on. -/
  named : Routing.Countable (assigner size) fun rank =>
    (Construction.named (records rank) (vertices rank)).dedup
  /-- The entries of all ranks fit into the memory that can be addressed. -/
  fits : (2 * (everything records).length + (everything vertices).length) * Wire.degree.bytes ≤
    Memory.largestBuffer

/-- Each record names two ids and each listed vertex one. -/
theorem length_named (records : List EdgeRecord) (vertices : List VertexId) :
    (Construction.named records vertices).length = 2 * records.length + vertices.length := by
  have ends : (records.flatMap fun record => [record.src, record.dst]).length = 2 * records.length := by
    simp [List.length_flatMap, Nat.mul_comm]
  rw [Construction.named, List.length_append, ends]

/-- Ranks that hold few records and list few vertices can count everything. -/
theorem Countable.of_few {records : Fin size → List EdgeRecord} {vertices : Fin size → List VertexId}
    (few : 2 * (everything records).length + (everything vertices).length ≤ Count.most) :
    Countable records vertices := by
  -- What is named once is at most what is named, of which there is a place for each.
  have places : (everything fun rank => Degrees.shares (records rank) (vertices rank) false).length =
      2 * (everything records).length + (everything vertices).length := Degrees.length_everything_shares
  have fewer : (everything fun rank => (Construction.named (records rank) (vertices rank)).dedup).length ≤
      Count.most := by
    refine Nat.le_trans (length_everything_mono fun rank => ?_) (places.trans_le few)
    rw [Degrees.length_shares, ← length_named]
    exact (List.dedup_sublist _).length_le
  have small : Count.most * Wire.degree.bytes ≤ Memory.largestBuffer := by decide
  exact ⟨.of_few fewer, Nat.le_trans (Nat.mul_le_mul_right _ few) small⟩

/-- What all ranks name can be counted by a word. -/
theorem Countable.lt_word {records : Fin size → List EdgeRecord} {vertices : Fin size → List VertexId}
    (countable : Countable records vertices) :
    2 * (everything records).length + (everything vertices).length < UInt64.size := by
  have fits : _ * 16 ≤ 2 ^ 63 - 1 := countable.fits
  have word : UInt64.size = 2 ^ 64 := rfl
  omega

/-- Ids are named by being endpoints or by being listed. -/
@[simp] theorem mem_named {records : List EdgeRecord} {vertices : List VertexId} {id : VertexId} :
    id ∈ Construction.named records vertices ↔
      (∃ record ∈ records, id = record.src ∨ id = record.dst) ∨ id ∈ vertices := by
  simp [Construction.named]

namespace Entries

variable {named : Fin size → List DegreeShare}

/-- A rank tells of every id that it names once. -/
theorem named_perm (lawful : ∀ rank, (members rank).sorter.Lawful) {rank : Fin size}
    (names : Degrees.named (members rank) (records rank) (vertices rank) transposed = .ok (named rank)) :
    (labelsOf named rank).Perm (Construction.named (records rank) (vertices rank)).dedup := by
  have made := (Degrees.named_eq_ok_iff.mp names).2
  have merged := Degrees.merged_of_merge (lawful rank) made
  -- Both lists have every id once, and the same ids.
  refine (List.perm_ext_iff_of_nodup merged.once (List.nodup_dedup _)).mpr fun id => ?_
  rw [merged.same, Degrees.mem_shares, List.mem_dedup, mem_named]

/-- Telling of ids takes as many entries as there are ids. -/
theorem countable_named (lawful : ∀ rank, (members rank).sorter.Lawful)
    (names : ∀ rank,
      Degrees.named (members rank) (records rank) (vertices rank) transposed = .ok (named rank))
    (counted : Routing.Countable (assigner size) fun rank =>
      (Construction.named (records rank) (vertices rank)).dedup) :
    Routing.Countable (assigner size) (labelsOf named) := by
  -- The entries are the ids that are named, up to their order.
  have same := fun rank => named_perm lawful (names rank)
  constructor
  · intro rank
    rw [(same rank).length_eq]
    exact counted.sends rank
  · intro rank
    have shared := (everything_perm same).filter fun id => decide (assigner size id = .ok rank.val)
    unfold Grouping.bound
    rw [shared.length_eq]
    exact counted.receives rank

end Entries

/-- Entries go where their vertices are at home. -/
theorem countable_meetsAt {named : Fin size → List DegreeShare}
    (counted : Routing.Countable (assigner size) (labelsOf named)) :
    Routing.Countable (meetsAt size) named := by
  -- An entry goes where its vertex goes, so that the numbers are the same.
  constructor
  · intro rank
    have share := counted.sends rank
    rwa [labelsOf, List.length_map] at share
  · intro rank
    have share := counted.receives rank
    have all : everything (labelsOf named) = (everything named).map DegreeShare.vertex :=
      (map_everything DegreeShare.vertex named).symm
    rw [all, Grouping.bound, List.filter_map, List.length_map] at share
    exact share

section Steps

variable {premises : Premises members} {facts : Fin size → Prop}
  (lawful : ∀ rank, (members rank).sorter.Lawful)

include lawful

/-- Ranks may name the vertices of their records and lists. -/
theorem named_leads (countable : premises.countable → Countable records vertices) :
    ∃ named, Leads premises.blame facts
      (fun rank => Program.ofExcept
        (Degrees.named (members rank) (records rank) (vertices rank) transposed))
      (premises.blame.Pending (fun rank => facts rank ∧
        Degrees.named (members rank) (records rank) (vertices rank) transposed = .ok (named rank))
        named) := by
  refine Leads.exists_ofExcept fun rank error fact failing => ?_
  -- Naming fails for want of a buffer or because degrees overflow.
  rcases bind_eq_error failing with refused | ⟨⟨⟩, -, refused⟩
  · refine premises.owns_makeRoom (fun roomy => ?_) refused
    refine Member.makeRoom_of_unlimited (premises.unlimited roomy rank) ?_
    have fits := (countable (premises.countable_of_roomy roomy)).fits
    have ownRecords := length_le_everything records rank
    have ownVertices := length_le_everything vertices rank
    exact Nat.le_trans (Nat.mul_le_mul_right _ (by omega)) fits
  · refine premises.owns_ofDefect (fun granted => ?_) refused
    have word := (countable granted).lt_word
    exact exists_merge_shares lawful (by omega) rank

variable {named : Fin size → List DegreeShare}
  (names : ∀ rank, facts rank →
    Degrees.named (members rank) (records rank) (vertices rank) transposed = .ok (named rank))
  (countable : premises.countable → Countable records vertices)

include names countable

/-- Ranks may gather the entries of the vertices that they number. -/
theorem gatherOwned_leads : ∃ owned, Leads premises.blame facts
    (fun rank => gatherOwned (members rank) order (named rank))
    (premises.blame.Pending (fun rank => (∀ rank, facts rank) ∧ ∃ merged,
        Degrees.merge (members rank).sorter
          (Grouping.bound (meetsAt size) (everything named) rank) = .ok merged ∧
        owned rank = Degrees.arrange (members rank).sorter order merged) owned) := by
  -- What arrives adds up to no more than the number of all records.
  have merging : premises.countable → ∀ rank, (∀ rank, facts rank) →
      ∃ merged, Degrees.merge (members rank).sorter
        (Grouping.bound (meetsAt size) (everything named) rank) = .ok merged := by
    intro granted rank all
    have word := (countable granted).lt_word
    exact exists_merge_met lawful (by omega) (fun rank => names rank (all rank)) rank
  obtain ⟨merged, summed⟩ := Leads.exists_ofDefect merging
  have few : premises.roomy → ∀ rank, facts rank → (named rank).length ≤ Count.most := by
    intro roomy rank fact
    have counted := (countable (premises.countable_of_roomy roomy)).named.sends rank
    have told := (Entries.named_perm lawful (names rank fact)).length_eq
    rw [labelsOf, List.length_map] at told
    rwa [told]
  have sent : Leads premises.blame facts
      (fun rank => Routing.send (members rank) Wire.degree (meetsAt size) (named rank))
      (premises.blame.Pending (fun _ => ∀ rank, facts rank) fun rank =>
        .ofGroups fun peer : Fin size => Grouping.bound (meetsAt size) (named peer) rank) := by
    refine Routing.send_leads (fun rank _ entry _ => exists_home rank entry.vertex)
      (fun granted all => ?_) few
    exact countable_meetsAt
      (Entries.countable_named lawful (fun rank => names rank (all rank)) (countable granted).named)
  -- Sending comes first, then each rank merges and arranges what it has received.
  refine ⟨fun rank => Degrees.arrange (members rank).sorter order (merged rank),
    sent.after ?_⟩
  simp only [Grouped.items_ofGroups, Routing.everything_bound]
  have arranged : Leads premises.blame (fun _ => ∀ rank, facts rank)
      (fun rank => Program.ofExcept (Failure.ofDefect (Degrees.merge (members rank).sorter
        (Grouping.bound (meetsAt size) (everything named) rank))) >>= fun owned =>
          pure (Degrees.arrange (members rank).sorter order owned))
      (premises.blame.Pending _ fun rank =>
        Degrees.arrange (members rank).sorter order (merged rank)) := summed.after (Leads.pure _)
  exact arranged.mono (fun _ all => all) fun _ held => held.mono fun rank fact =>
    ⟨fact.1, merged rank, fact.2, rfl⟩

omit lawful names countable

/-- Ranks may number the vertices that they have gathered. -/
theorem number_leads (ranked : ∀ rank, (members rank).rank = rank) (someone : Fin size)
    {owned : Fin size → List DegreeShare}
    (once : (∀ rank, facts rank) → ∀ rank, (labelsOf owned rank).Nodup)
    (fits : premises.countable → (∀ rank, facts rank) → (everything owned).length < UInt64.size) :
    ∃ partition : Partition size, Leads premises.blame facts
      (fun rank => number (members rank) (owned rank))
      (premises.blame.Pending (fun rank => (∀ rank, facts rank) ∧
          Partition.ofCounts (Vector.ofFn fun rank => UInt64.ofNat (owned rank).length) = .ok partition ∧
          (owned rank).length = (partition.countOf rank).toNat) (part (labelsOf owned) partition)) := by
  let counts := Vector.ofFn fun rank => UInt64.ofNat (owned rank).length
  -- If the numbers of vertices are too great, any partition stands for the one that is not found.
  obtain ⟨partition, unique⟩ : ∃ partition : Partition size,
      ∀ other, Partition.ofCounts counts = .ok other → other = partition := by
    cases Partition.ofCounts counts with
    | ok partition => exact ⟨partition, fun _ made => (Except.ok.inj made).symm⟩
    | error error =>
      obtain ⟨partition, -⟩ := Partition.exists_even 0 (Nat.ne_of_gt someone.pos)
      exact ⟨partition, fun _ made => nomatch made⟩
  -- Once the numbers of vertices are exchanged, each rank computes the rest alone.
  have counted : Leads premises.blame (fun _ => ∀ rank, facts rank)
      (fun _ => Program.ofExcept (Failure.ofDefect (Partition.ofCounts counts)))
      (premises.blame.Pending (fun _ => (∀ rank, facts rank) ∧ Partition.ofCounts counts = .ok partition)
        fun _ : Fin size => partition) := by
    refine Leads.ofDefect (fun rank other all made => ?_) fun countable _ all => ?_
    · obtain rfl := unique other made
      exact ⟨⟨all, made⟩, rfl⟩
    · obtain ⟨found, shared, -⟩ := exists_filled someone (fits countable all)
      exact ⟨found, shared⟩
  -- Labels are different, so that all of them fill the run that was made for them.
  have labelled : Leads premises.blame
      (fun _ => (∀ rank, facts rank) ∧ Partition.ofCounts counts = .ok partition)
      (fun rank => Program.ofExcept (Failure.ofDefect
        (ofLabels partition (members rank).rank ((owned rank).map DegreeShare.vertex))))
      (premises.blame.Pending (fun rank => (∀ rank, facts rank) ∧
          Partition.ofCounts counts = .ok partition ∧
          (owned rank).length = (partition.countOf rank).toNat) (part (labelsOf owned) partition)) := by
    simp only [ranked]
    refine Leads.ofDefect (fun rank numbering fact made => ?_) fun countable rank fact => ?_
    · obtain ⟨filled, same⟩ := (ofLabels_labelsOf_eq_ok_iff (once fact.1 rank)).mp made
      exact ⟨⟨fact.1, fact.2, filled⟩, same⟩
    · obtain ⟨found, shared, filled⟩ := exists_filled someone (fits countable fact.1)
      obtain rfl := unique found shared
      exact ⟨_, (ofLabels_labelsOf_eq_ok_iff (once fact.1 rank)).mpr ⟨filled rank, rfl⟩⟩
  exact ⟨partition, (Communicator.allGather_leads Wire.word _).after (counted.after labelled)⟩

section Resolve

variable {labels : Fin size → List VertexId} {partition : Partition size}
  {olds : Fin size → List VertexId}

/-- Answers go back in the groups in which the questions came. -/
theorem sendBack_replies_leads
    (small : ∀ rank (owner : Fin size),
      (Grouping.bound (assigner size) (olds rank) owner).length ≤ Count.most)
    (counted : premises.countable → Routing.Countable (assigner size) olds) :
    Leads premises.blame facts
      (fun rank => Routing.sendBack (members rank) Wire.word
        ⟨everything (replies labels partition olds rank),
          (Grouped.ofGroups fun peer => Grouping.bound (assigner size) (olds peer) rank).counts⟩
        (Grouped.ofGroups fun owner : Fin size =>
          Grouping.bound (assigner size) (olds rank) owner).counts)
      (premises.blame.Pending (fun _ => ∀ rank, facts rank)
        fun rank => everything fun peer => replies labels partition olds peer rank) := by
  have returned : Leads premises.blame facts
      (fun rank => Routing.sendBack (members rank) Wire.word
        (.ofGroups (replies labels partition olds rank))
        (Communicator.announced fun peer => replies labels partition olds peer rank))
      (premises.blame.Pending (fun _ => ∀ rank, facts rank)
        fun rank => everything fun peer => replies labels partition olds peer rank) := by
    refine Routing.sendBack_leads (length_replies_le small) (fun countable rank => ?_) fun countable rank => ?_
    · rw [everything_replies, List.length_map]
      exact (counted countable).receives rank
    · have home : ∀ id ∈ olds rank, ∃ owner : Fin size, assigner size id = .ok owner.val :=
        fun id _ => exists_home rank id
      rw [everything_replied, List.length_map, Routing.length_everything_bound home]
      exact (counted countable).sends rank
  -- There is one answer for every question, so the counts of the questions serve for the answers.
  simp only [Grouped.ofGroups, announced_replies, announced_replied] at returned
  exact returned

/-- Ranks may ask for the new ids of labels. -/
theorem resolve_leads (labelled : (∀ rank, facts rank) → Labels labels partition)
    (known : (∀ rank, facts rank) → ∀ id ∈ everything olds, ∃ rank, id ∈ labels rank)
    (counted : premises.countable → (∀ rank, facts rank) → Routing.Countable (assigner size) olds)
    (few : premises.roomy → ∀ rank, facts rank → (olds rank).length ≤ Count.most) :
    Leads premises.blame facts
      (fun rank => resolve (members rank) (part labels partition rank) (olds rank))
      (premises.blame.Pending (fun _ => ∀ rank, facts rank) (table labels partition olds)) := by
  have home : ∀ rank, facts rank → ∀ id ∈ olds rank, ∃ owner : Fin size,
      assigner size id = .ok owner.val := fun rank _ id _ => exists_home rank id
  have asked : Leads premises.blame _
      (fun rank => Routing.sendGroups (members rank) Wire.vertex
        (.ofGroups fun owner : Fin size => Grouping.bound (assigner size) (olds rank) owner)) _ :=
    Routing.sendGroups_bound_leads home counted
  refine (Routing.group_leads home few).after (asked.after ?_)
  -- From here on all ranks know that their questions can be answered.
  refine Leads.given (fun _ all => all) fun all => ?_
  have passed := fun rank => (all rank).1
  -- Every question is for a label of the rank that it was routed to.
  have answered : ∀ rank, (part labels partition rank).answers
      (Grouped.ofGroups fun peer : Fin size => Grouping.bound (assigner size) (olds peer) rank).items =
        .ok (everything (replies labels partition olds rank)) := by
    intro rank
    rw [everything_replies, ← answers_part (labelled passed) (known passed) rank,
      ← Routing.everything_bound]
    rfl
  simp only [answered]
  refine (Leads.pure _).after ((sendBack_replies_leads (fun rank => (all rank).2)
    fun countable => counted countable passed).after ?_)
  rw [← zip_replied]
  exact (Leads.pure _).mono (fun _ fact => fact) fun _ held => held.mono fun _ _ => passed

end Resolve

include lawful

/-- Ranks may relabel their records once all vertices are numbered. -/
theorem relabelAll_leads {agreement : Agreement size}
    (agreed : (∀ rank, facts rank) →
      Agreed members records vertices order transposed agreement)
    (names : ∀ rank, facts rank → Degrees.named (members rank) (records rank) (vertices rank) transposed =
      .ok (agreement.named rank))
    (countable : premises.countable → Countable records vertices) :
    Leads premises.blame facts
      (fun rank => relabelAll (members rank) (agreement.parts rank) (agreement.named rank) (records rank))
      (premises.blame.Pending
        (fun _ => Agreed members records vertices order transposed agreement ∧ ∀ rank, facts rank)
        fun rank =>
          (agreement.parts rank, (records rank).map (EdgeRecord.renamed (newOf agreement.parts)))) := by
  have few : premises.roomy → ∀ rank, facts rank →
      (labelsOf agreement.named rank).length ≤ Count.most := by
    intro roomy rank fact
    rw [(Entries.named_perm lawful (names rank fact)).length_eq]
    exact (countable (premises.countable_of_roomy roomy)).named.sends rank
  refine (resolve_leads (fun all => (agreed all).labels lawful)
    (fun all id member => (agreed all).entries.exists_owner lawful member)
    (fun granted all => Entries.countable_named lawful (fun rank => names rank (all rank))
      (countable granted).named) few).after ?_
  -- Once the ranks have resolved their ids, relabelling finds all of them.
  refine Leads.given (fun _ all => all) fun all => ?_
  have relabelled := (agreed all).entries.mapM_relabel_eq lawful agreement.partition
  simp only [relabelled]
  exact (Leads.pure _).after ((Leads.pure _).mono (fun _ _ => ⟨agreed all, all⟩) fun _ held => held)

/-- Ranks may number all vertices that they name. -/
theorem assign_leads (ranked : ∀ rank, (members rank).rank = rank) (someone : Fin size)
    (countable : premises.countable → Countable records vertices) :
    ∃ agreement, Leads premises.blame facts
      (fun rank => assign (members rank) (records rank) (vertices rank) order transposed)
      (premises.blame.Pending
        (fun _ => Agreed members records vertices order transposed agreement ∧ ∀ rank, facts rank)
        fun rank =>
          (agreement.parts rank, (records rank).map (EdgeRecord.renamed (newOf agreement.parts)))) := by
  simp only [assign_eq]
  obtain ⟨named, naming⟩ := named_leads lawful countable
  obtain ⟨owned, gathering⟩ : ∃ owned, Leads premises.blame (fun rank => facts rank ∧
      Degrees.named (members rank) (records rank) (vertices rank) transposed = .ok (named rank))
      (fun rank => gatherOwned (members rank) order (named rank)) _ :=
    gatherOwned_leads lawful (fun _ fact => fact.2) countable
  have entries : (∀ rank : Fin size, (∀ rank, facts rank ∧
        Degrees.named (members rank) (records rank) (vertices rank) transposed = .ok (named rank)) ∧
      ∃ merged, Degrees.merge (members rank).sorter
          (Grouping.bound (meetsAt size) (everything named) rank) = .ok merged ∧
        owned rank = Degrees.arrange (members rank).sorter order merged) →
      Entries members records vertices order transposed named owned := by
    intro all
    choose names merged made arranged using all
    exact ⟨fun rank => (names rank rank).2, merged, made, funext arranged⟩
  obtain ⟨partition, numbering⟩ := number_leads ranked someone
    (fun all => (entries all).once lawful) fun granted all => by
      have fewNamed := length_everything_named_le lawful (entries all).names
      have fewOwned := (entries all).merges.length_everything_le lawful
      have word := (countable granted).lt_word
      omega
  -- What was found on the way is what the ranks agree on once all of them have got here.
  refine ⟨⟨named, owned, partition⟩, naming.after (gathering.after (numbering.after ?_))⟩
  refine (relabelAll_leads lawful (fun all => ?_) (fun rank fact => ?_) countable).mono
    (fun _ fact => fact) fun _ held => held.mono fun _ fact => ⟨fact.1, fun rank => ?_⟩
  · exact ⟨entries (all someone).1, (all someone).2.1, fun rank => (all rank).2.2⟩
  · exact ((fact.1 rank).1 rank).2
  · exact (((fact.2 rank).1 rank).1 rank).1

end Steps

end DistGraph.Numbering
