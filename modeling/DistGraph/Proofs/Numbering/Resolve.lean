import DistGraph.Proofs.Numbering.Labels
import DistGraph.Proofs.Routing.Exchange
import DistGraph.Proofs.Routing.Placement

/-! Every rank learns the new ids of the vertices that it asks for. -/

namespace DistGraph.Numbering

variable {size : Nat} {members : Fin size → Member size} {labels : Fin size → List VertexId}
  {partition : Partition size} {olds : Fin size → List VertexId}

/-- A rank knows the new ids of its own labels. -/
theorem newId?_part (labelled : Labels labels partition) {rank : Fin size} {old : VertexId}
    (member : old ∈ labels rank) :
    (part labels partition rank).newId? old = some (newOf (part labels partition) old) := by
  have found : (part labels partition rank).newId? old =
      ((labels rank).idxOf? old).map fun i => (partition.spanOf rank).start + UInt64.ofNat i := rfl
  rw [found]
  -- A label has a position, and its new id is at that position of the run.
  cases place : (labels rank).idxOf? old with
  | none => exact absurd member (List.idxOf?_eq_none_iff.mp place)
  | some i =>
    obtain ⟨inside, here, -⟩ := List.idxOf?_eq_some_iff.mp place
    have pair : (old, (partition.spanOf rank).start + UInt64.ofNat i) ∈
        (part labels partition rank).pairs := Labels.mem_pairs_iff.mpr ⟨i, inside, here, rfl⟩
    rw [Option.map_some, labelled.newOf_eq (mem_everything.mpr ⟨rank, pair⟩)]

/-- A rank answers for all labels that it is asked for. -/
theorem answers_part (labelled : Labels labels partition)
    (known : ∀ id ∈ everything olds, ∃ rank, id ∈ labels rank) (rank : Fin size) :
    (part labels partition rank).answers (Grouping.bound (assigner size) (everything olds) rank) =
      .ok ((Grouping.bound (assigner size) (everything olds) rank).map
        (newOf (part labels partition))) := by
  refine mapM_eq_ok fun id member => ?_
  obtain ⟨asked, goes⟩ := List.mem_filter.mp member
  obtain ⟨owner, held⟩ := known id asked
  -- The rank that is asked is the one that the label is at home on.
  have home := labelled.home owner id held
  rw [of_decide_eq_true goes, Except.ok.injEq] at home
  obtain rfl : rank = owner := Fin.ext home
  rw [answer, newId?_part labelled held]

/-- Whether ranks can ask for ids and be answered. -/
structure Answerable (members : Fin size → Member size) (olds : Fin size → List VertexId) : Prop where
  /-- The questions reach the ranks that number the ids. -/
  asked : Routing.Deliverable members Wire.vertex (assigner size) olds
  /-- The answers come back. -/
  answered : ∀ rank, (members rank).Carries Wire.word
    (Grouping.bound (assigner size) (everything olds) rank).length (olds rank).length

/-- Ranks that can hold all questions can ask them and be answered. -/
theorem Answerable.of_holds {number : Nat} (few : (everything olds).length ≤ number)
    (holds : ∀ rank, (members rank).Holds number) : Answerable members olds := by
  -- Questions and answers alike are some of those that every rank can hold.
  constructor
  · exact Routing.Deliverable.of_holds (fun id member => exists_home_of_mem member id) few holds
  · intro rank
    have share := length_le_everything olds rank
    exact (holds rank).carries Wire.word (Nat.le_trans (List.length_filter_le _ _) few) (by omega)

/-- The old and new ids that a rank learns. -/
def table (labels : Fin size → List VertexId) (partition : Partition size)
    (olds : Fin size → List VertexId) (rank : Fin size) : List (VertexId × VertexId) :=
  -- Questions are grouped by the ranks that they go to.
  (everything fun owner : Fin size => Grouping.bound (assigner size) (olds rank) owner).map fun id =>
    (id, newOf (part labels partition) id)

variable (labels partition olds) in
/-- The new ids that a rank sends back to a peer that asked it. -/
def replies (rank peer : Fin size) : List VertexId :=
  (Grouping.bound (assigner size) (olds peer) rank).map (newOf (part labels partition))

/-- A rank answers with the new ids of what it was asked, in the same order. -/
theorem everything_replies (rank : Fin size) : everything (replies labels partition olds rank) =
    (Grouping.bound (assigner size) (everything olds) rank).map (newOf (part labels partition)) := by
  rw [← Routing.everything_bound, map_everything]
  rfl

/-- What a rank is told altogether is the new ids of what it asked for, rank by rank. -/
theorem everything_replied (rank : Fin size) :
    (everything fun peer => replies labels partition olds peer rank) =
      (everything fun owner : Fin size => Grouping.bound (assigner size) (olds rank) owner).map
        (newOf (part labels partition)) := by
  rw [map_everything]
  rfl

/-- A rank sends as many answers to a peer as it was asked questions. -/
theorem length_replies_le {most : Nat} (small : ∀ rank (owner : Fin size),
    (Grouping.bound (assigner size) (olds rank) owner).length ≤ most) (rank peer : Fin size) :
    (replies labels partition olds rank peer).length ≤ most := by
  rw [replies, List.length_map]
  exact small peer rank

/-- The counts of the questions that a rank was asked serve for the answers that it sends. -/
theorem announced_replies (rank : Fin size) :
    Communicator.announced (replies labels partition olds rank) =
      Communicator.announced fun peer => Grouping.bound (assigner size) (olds peer) rank :=
  Communicator.announced_map _ _

/-- The counts of the questions that a rank has asked serve for the answers that it is sent. -/
theorem announced_replied (rank : Fin size) :
    (Communicator.announced fun peer => replies labels partition olds peer rank) =
      Communicator.announced fun owner : Fin size => Grouping.bound (assigner size) (olds rank) owner :=
  Communicator.announced_map _ _

/-- Every rank finds the new ids that it is asked for. -/
theorem answers_computes (labelled : Labels labels partition)
    (known : ∀ id ∈ everything olds, ∃ rank, id ∈ labels rank) :
    Computes (fun rank => (Program.ofExcept ((part labels partition rank).answers
      (Grouped.ofGroups fun peer => Grouping.bound (assigner size) (olds peer) rank).items) :
      Program size Failure (List UInt64)))
      (· = fun rank => everything (replies labels partition olds rank)) := by
  refine (Computes.ofExcept _).congr fun results => ?_
  simp only [Grouped.items_ofGroups, Routing.everything_bound, answers_part labelled known,
    Except.ok.injEq, ← everything_replies, funext_iff, eq_comm]

/-- Answers go back in the groups in which the questions came. -/
theorem sendBack_replies_computes (small : ∀ rank (owner : Fin size),
    (Grouping.bound (assigner size) (olds rank) owner).length ≤ Count.most) :
    Computes (fun rank => Routing.sendBack (members rank) Wire.word
        ⟨everything (replies labels partition olds rank),
          (Grouped.ofGroups fun peer => Grouping.bound (assigner size) (olds peer) rank).counts⟩
        (Grouped.ofGroups fun owner : Fin size =>
          Grouping.bound (assigner size) (olds rank) owner).counts) fun ids =>
      (∀ rank, (members rank).Carries Wire.word (everything (replies labels partition olds rank)).length
        (everything fun peer => replies labels partition olds peer rank).length) ∧
      ids = fun rank => everything fun peer => replies labels partition olds peer rank := by
  -- There is one answer for each question, so that they can be counted as well.
  have few : ∀ rank peer, (replies labels partition olds rank peer).length ≤ Count.most :=
    length_replies_le small
  have counted := Routing.sendBack_computes members Wire.word few
  simp only [Grouped.ofGroups, announced_replies, announced_replied] at counted
  exact counted

/-- Each question comes back next to its answer. -/
theorem zip_replied (labels : Fin size → List VertexId) (partition : Partition size)
    (olds : Fin size → List VertexId) :
    (fun rank => (Grouped.ofGroups fun owner : Fin size =>
        Grouping.bound (assigner size) (olds rank) owner).items.zip
      (everything fun peer => replies labels partition olds peer rank)) =
      table labels partition olds := by
  funext rank
  rw [everything_replied, table, List.map_prod_left_eq_zip]
  rfl

/-- Ranks that ask for the new ids of labels are told them. -/
theorem resolve_computes (labelled : Labels labels partition)
    (known : ∀ id ∈ everything olds, ∃ rank, id ∈ labels rank) :
    Computes (fun rank => resolve (members rank) (part labels partition rank) (olds rank))
      fun tables => Answerable members olds ∧ tables = table labels partition olds := by
  -- Questions are grouped and sent, answered by each rank alone, and sent back.
  refine Computes.congr ((Routing.group_computes (assigner size) olds).afterIf _ fun condition =>
    (Routing.sendGroups_computes members Wire.vertex condition.2).afterIf _ fun _ =>
      (answers_computes labelled known).after ((sendBack_replies_computes condition.2).afterIf _
        fun _ => Computes.pure _)) fun tables => ?_
  -- As many answers come back as ids were asked.
  have back : (∀ rank, ∀ id ∈ olds rank, ∃ owner : Fin size, assigner size id = .ok owner.val) →
      ∀ rank, (everything fun owner : Fin size =>
        Grouping.bound (assigner size) (olds rank) owner).length = (olds rank).length :=
    fun named rank => Routing.length_everything_bound (named rank)
  rw [zip_replied]
  simp only [Routing.everything_bound, everything_replies, everything_replied, List.length_map]
  constructor
  · intro ⟨⟨named, _⟩, sent, replied, known⟩
    refine ⟨⟨⟨?_, fun rank => ?_⟩, fun rank => back named rank ▸ replied rank⟩, known⟩
    · intro id member
      obtain ⟨rank, held⟩ := mem_everything.mp member
      exact named rank id held
    · exact back named rank ▸ sent rank
  · intro ⟨answerable, known⟩
    have named : ∀ rank, ∀ id ∈ olds rank, ∃ owner : Fin size, assigner size id = .ok owner.val :=
      fun rank id held => answerable.asked.named id (mem_everything.mpr ⟨rank, held⟩)
    refine ⟨⟨named, fun rank owner => ?_⟩, fun rank => ?_,
      fun rank => (back named rank).symm ▸ answerable.answered rank, known⟩
    · exact Nat.le_trans (List.length_filter_le _ _) (answerable.asked.carried rank).sends
    · exact (back named rank).symm ▸ answerable.asked.carried rank

end DistGraph.Numbering
