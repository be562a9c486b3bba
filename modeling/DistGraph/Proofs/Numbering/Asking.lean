import DistGraph.Numbering.Inquiry
import DistGraph.Proofs.Numbering.Resolve

/-! Questions for ids go out by owner, and their answers come back in the order in which they were asked. -/

namespace DistGraph

/-- The reply to a question, whether an id was found or not. -/
def IdReply.ofFound (found : Option VertexId) : IdReply :=
  (found.map .ofId).getD .missing

/-- A reply gives what was found. -/
@[simp] theorem IdReply.get?_ofFound (found : Option VertexId) : (IdReply.ofFound found).get? = found := by
  cases found <;> rfl

namespace Numbering

variable {size : Nat}

section Scatter

/-- The replies to some entries, put to the places that the entries name. -/
def scatter (answers : Array (Option VertexId)) (replied : List ((VertexId × Nat) × IdReply)) :
    Array (Option VertexId) :=
  replied.foldl (fun answers (entry, reply) => answers.setIfInBounds entry.2 reply.get?) answers

/-- Putting replies to their places adds no place. -/
theorem size_scatter (answers : Array (Option VertexId)) (replied : List ((VertexId × Nat) × IdReply)) :
    (scatter answers replied).size = answers.size := by
  induction replied generalizing answers with
  | nil => rfl
  | cons first replied ih => exact (ih _).trans Array.size_setIfInBounds

variable {ids : List VertexId} {found : VertexId → Option VertexId}

/-- A place that some entry names gets what was found for its id, if all entries name the places of
their ids. -/
theorem getElem?_scatter {entries : List (VertexId × Nat)} {answers : Array (Option VertexId)}
    (placed : ∀ entry ∈ entries, ids[entry.2]? = some entry.1) (room : answers.size = ids.length)
    {place : Nat} {id : VertexId} (here : ids[place]? = some id)
    (known : answers[place]? = some (found id) ∨ (id, place) ∈ entries) :
    (scatter answers (entries.map fun entry => (entry, .ofFound (found entry.1))))[place]? =
      some (found id) := by
  -- Every entry that names the place brings the same answer, so the last one does not matter.
  induction entries generalizing answers with
  | nil => exact known.resolve_right List.not_mem_nil
  | cons entry entries ih =>
    have inside : place < answers.size := by
      rw [room]
      exact (List.getElem?_eq_some_iff.mp here).1
    have named := placed entry List.mem_cons_self
    refine ih (fun other member => placed other (List.mem_cons_of_mem _ member))
      (Array.size_setIfInBounds.trans room) ?_
    dsimp only
    rw [IdReply.get?_ofFound, Array.getElem?_setIfInBounds]
    by_cases same : entry.2 = place
    · rw [same, here, Option.some.injEq] at named
      exact .inl (by rw [if_pos same, if_pos (same ▸ inside), named])
    · rcases known with before | member
      · exact .inl (by rw [if_neg same, before])
      · rcases List.mem_cons.mp member with rfl | later
        · exact absurd rfl same
        · exact .inr later

/-- All ids get what was found for them if every place is named once. -/
theorem scatter_eq {entries : List (VertexId × Nat)} (perm : entries.Perm ids.zipIdx) :
    (scatter (Array.replicate ids.length none)
      (entries.map fun entry => (entry, .ofFound (found entry.1)))).toList = ids.map found := by
  have placed : ∀ entry ∈ entries, ids[entry.2]? = some entry.1 := fun entry member =>
    List.mk_mem_zipIdx_iff_getElem?.mp (perm.mem_iff.mp member)
  refine List.ext_getElem? fun place => ?_
  rw [Array.getElem?_toList, List.getElem?_map]
  -- A place past the end is not written, and any other one has the entry that names it.
  cases here : ids[place]? with
  | none =>
    rw [List.getElem?_eq_none_iff] at here
    rw [Option.map_none, Array.getElem?_eq_none_iff, size_scatter, Array.size_replicate]
    exact here
  | some id =>
    exact getElem?_scatter placed Array.size_replicate here
      (.inr (perm.mem_iff.mpr (List.mk_mem_zipIdx_iff_getElem?.mpr here)))

end Scatter

/-- Asking groups the ids with their places, sends the ids, takes the answers back and puts them in place.
-/
theorem ask_eq (self : Member size) (route : VertexId → Except Failure Nat)
    (known : VertexId → Option VertexId) (ids : List VertexId) : ask self route known ids =
      (Program.ofExcept (Grouping.group size (fun entry => route entry.1) ids.zipIdx) >>= fun placed =>
        Routing.sendGroups self Wire.vertex ⟨placed.items.map Prod.fst, placed.counts⟩ >>= fun requests =>
        Routing.sendBack self Wire.reply
          ⟨requests.items.map fun id => .ofFound (known id), requests.counts⟩ placed.counts >>= fun replies =>
        pure (scatter (Array.replicate ids.length none) (placed.items.zip replies)).toList) := rfl

section Ask

variable (members : Fin size → Member size) (route : Fin size → VertexId → Except Failure Nat)
  (known : Fin size → VertexId → Option VertexId) (ids : Fin size → List VertexId)

/-- The ids that a rank asks a peer for. -/
def questions (rank peer : Fin size) : List VertexId :=
  Grouping.bound (route rank) (ids rank) peer

/-- The ids that a rank asks a peer for, with their places. -/
def entries (rank peer : Fin size) : List (VertexId × Nat) :=
  Grouping.bound (fun entry => route rank entry.1) (ids rank).zipIdx peer

/-- Whether ranks can send all questions and all answers. -/
structure Askable : Prop where
  /-- The questions reach the ranks that they go to. -/
  asked : ∀ rank, (members rank).Carries Wire.vertex (ids rank).length
    (everything fun peer => questions route ids peer rank).length
  /-- The answers come back. -/
  answered : ∀ rank, (members rank).Carries Wire.reply
    (everything fun peer => questions route ids peer rank).length (ids rank).length

/-- What is asked of a rank are the ids of the entries that are grouped for it. -/
theorem map_fst_entries (rank peer : Fin size) :
    (entries route ids rank peer).map Prod.fst = questions route ids rank peer := by
  -- Grouping looks at the ids alone, so that it can be done before or after the places are dropped.
  have whole : (ids rank).zipIdx.map Prod.fst = ids rank := List.zipIdx_map_fst 0 (ids rank)
  unfold entries questions Grouping.bound
  conv_rhs => rw [← whole, List.filter_map]
  rfl

/-- There is an entry for each question. -/
theorem length_questions (rank peer : Fin size) :
    (questions route ids rank peer).length = (entries route ids rank peer).length := by
  rw [← map_fst_entries, List.length_map]

/-- What a rank answers to a peer that asked it. -/
def answersTo (rank peer : Fin size) : List IdReply :=
  (questions route ids peer rank).map fun id => .ofFound (known rank id)

/-- A rank answers its questions in the order in which they have reached it. -/
theorem everything_answersTo (rank : Fin size) : everything (answersTo route known ids rank) =
    (everything fun peer => questions route ids peer rank).map fun id => .ofFound (known rank id) := by
  rw [map_everything]
  rfl

variable {members route known ids}

/-- The questions of a rank, told apart from their places, are what it sends. -/
theorem ofGroups_questions (rank : Fin size) :
    (⟨(Grouped.ofGroups (entries route ids rank)).items.map Prod.fst,
      (Grouped.ofGroups (entries route ids rank)).counts⟩ : Grouped VertexId) =
        .ofGroups (questions route ids rank) := by
  have same : questions route ids rank = fun peer => (entries route ids rank peer).map Prod.fst :=
    funext fun peer => (map_fst_entries route ids rank peer).symm
  simp only [Grouped.ofGroups, same, Communicator.announced_map, map_everything]

/-- Answers go back in the groups in which the questions came. -/
theorem ofGroups_answersTo (rank : Fin size) :
    (⟨(Grouped.ofGroups fun peer => questions route ids peer rank).items.map fun id =>
        IdReply.ofFound (known rank id),
      (Grouped.ofGroups fun peer => questions route ids peer rank).counts⟩ : Grouped IdReply) =
        .ofGroups (answersTo route known ids rank) := by
  simp only [Grouped.ofGroups, everything_answersTo]
  unfold answersTo
  rw [Communicator.announced_map]

variable (known) in
/-- A rank expects as many answers from every peer as it asks it questions. -/
theorem counts_entries (rank : Fin size) : (Grouped.ofGroups (entries route ids rank)).counts =
    Communicator.announced fun peer => answersTo route known ids peer rank := by
  -- There is one answer for each question, which is one of the entries.
  have same : ∀ peer, (entries route ids rank peer).length = (answersTo route known ids peer rank).length := by
    intro peer
    rw [answersTo, List.length_map, length_questions]
  simp only [Grouped.ofGroups, Communicator.announced, same]

section Small

variable (members) (small : ∀ rank peer, (questions route ids rank peer).length ≤ Count.most)

include small

/-- Ranks that send their questions receive those of the others. -/
theorem sendGroups_questions_computes :
    Computes (fun rank => Routing.sendGroups (members rank) Wire.vertex
      ⟨(Grouped.ofGroups (entries route ids rank)).items.map Prod.fst,
        (Grouped.ofGroups (entries route ids rank)).counts⟩) fun results =>
      (∀ rank, (members rank).Carries Wire.vertex (everything (questions route ids rank)).length
        (everything fun peer => questions route ids peer rank).length) ∧
      results = fun rank => .ofGroups fun peer => questions route ids peer rank := by
  simp only [ofGroups_questions]
  exact Routing.sendGroups_computes members Wire.vertex small

variable (known) in
/-- Ranks that answer questions receive the answers to theirs. -/
theorem sendBack_answers_computes :
    Computes (fun rank => Routing.sendBack (members rank) Wire.reply
      ⟨(Grouped.ofGroups fun peer => questions route ids peer rank).items.map fun id =>
          IdReply.ofFound (known rank id),
        (Grouped.ofGroups fun peer => questions route ids peer rank).counts⟩
      (Grouped.ofGroups (entries route ids rank)).counts) fun results =>
      (∀ rank, (members rank).Carries Wire.reply (everything fun peer => questions route ids peer rank).length
        (everything (questions route ids rank)).length) ∧
      results = fun rank => everything fun peer => answersTo route known ids peer rank := by
  -- Answers come in the same numbers as questions, in the other direction.
  have told : ∀ rank peer, (answersTo route known ids rank peer).length =
      (questions route ids peer rank).length := fun _ _ => List.length_map _
  simp only [ofGroups_answersTo, counts_entries known]
  refine (Routing.sendBack_computes members Wire.reply fun rank peer => ?_).congr fun results => ?_
  · rw [told]
    exact small peer rank
  · simp only [length_everything, told]

end Small

variable {found : VertexId → Option VertexId}
  (knows : ∀ rank owner id, id ∈ ids rank → route rank id = .ok owner.val → known owner id = found id)

include knows in
/-- What a rank is answered altogether is what was found for its questions, rank by rank. -/
theorem everything_answered (rank : Fin size) :
    (everything fun peer => answersTo route known ids peer rank) =
      (everything (entries route ids rank)).map fun entry => .ofFound (found entry.1) := by
  rw [map_everything]
  congr 1
  funext peer
  unfold answersTo
  -- A question is among the ids of its asker and was routed to its owner, who knows what was found.
  rw [← map_fst_entries, List.map_map]
  refine List.map_congr_left fun entry member => ?_
  obtain ⟨held, sent⟩ := List.mem_filter.mp member
  exact congrArg IdReply.ofFound
    (knows rank peer entry.1 (List.fst_mem_of_mem_zipIdx held) (of_decide_eq_true sent))

include knows in
/-- Each question comes back next to what was found for it. -/
theorem zip_answered (rank : Fin size) : (Grouped.ofGroups (entries route ids rank)).items.zip
    (everything fun peer => answersTo route known ids peer rank) =
      (everything (entries route ids rank)).map fun entry => (entry, .ofFound (found entry.1)) := by
  rw [everything_answered knows, List.map_prod_left_eq_zip]
  rfl

variable (goes : ∀ rank, ∀ id ∈ ids rank, ∃ owner : Fin size, route rank id = .ok owner.val)

include goes

/-- Every question is asked once. -/
theorem everything_entries_perm (rank : Fin size) :
    (everything (entries route ids rank)).Perm (ids rank).zipIdx :=
  Routing.everything_bound_perm fun entry member =>
    goes rank entry.1 (List.fst_mem_of_mem_zipIdx member)

/-- Every id is asked of one rank. -/
theorem length_everything_questions (rank : Fin size) :
    (everything (questions route ids rank)).length = (ids rank).length :=
  Routing.length_everything_bound (goes rank)

/-- Ranks group their questions if none has too many for a peer. -/
theorem group_questions_computes :
    Computes (fun rank => (Program.ofExcept (Grouping.group size (fun entry => route rank entry.1)
        (ids rank).zipIdx) : Program size Failure (Grouped (VertexId × Nat)))) fun results =>
      (∀ rank peer, (questions route ids rank peer).length ≤ Count.most) ∧
      results = fun rank => .ofGroups (entries route ids rank) := by
  refine (Computes.ofExcept _).congr fun results => ?_
  simp only [Grouping.group_eq_ok_iff, forall_and, funext_iff, length_questions]
  exact and_iff_right fun rank entry member => goes rank entry.1 (List.fst_mem_of_mem_zipIdx member)

variable (known) in
include knows in
/-- Ranks that ask for ids are told what is known on the ranks that they ask. -/
theorem ask_computes :
    Computes (fun rank => ask (members rank) (route rank) (known rank) (ids rank)) fun results =>
      Askable members route ids ∧ results = fun rank => (ids rank).map found := by
  have scattered : ∀ rank, (scatter (Array.replicate (ids rank).length none)
      ((Grouped.ofGroups (entries route ids rank)).items.zip
        (everything fun peer => answersTo route known ids peer rank))).toList = (ids rank).map found := by
    intro rank
    rw [zip_answered knows, scatter_eq (everything_entries_perm goes rank)]
  simp only [ask_eq]
  refine Computes.congr ((group_questions_computes goes).afterIf _ fun small =>
    (sendGroups_questions_computes members small).afterIf _ fun _ =>
    (sendBack_answers_computes members known small).afterIf _ fun _ => Computes.pure _) fun results => ?_
  simp only [scattered, length_everything_questions goes]
  constructor
  · intro ⟨_, asked, answered, same⟩
    exact ⟨⟨asked, answered⟩, same⟩
  · intro ⟨askable, same⟩
    refine ⟨fun rank peer => ?_, askable.asked, askable.answered, same⟩
    -- No group has more questions than the rank asks altogether.
    exact Nat.le_trans (List.length_filter_le ..) (askable.asked rank).sends

end Ask

/-- Whether ranks can count the questions that they ask and that they are asked. -/
structure Inquirable (route : Fin size → VertexId → Except Failure Nat) (ids : Fin size → List VertexId) :
    Prop where
  /-- No rank asks too much. -/
  asks : ∀ rank, (ids rank).length ≤ Count.most
  /-- No rank is asked too much. -/
  asked : ∀ rank, (everything fun peer => questions route ids peer rank).length ≤ Count.most

/-- Questions can be counted if there are few of them altogether. -/
theorem Inquirable.of_few {route : Fin size → VertexId → Except Failure Nat}
    {ids : Fin size → List VertexId} (few : (everything ids).length ≤ Count.most) :
    Inquirable route ids := by
  refine ⟨fun rank => Nat.le_trans (length_le_everything ids rank) few, fun rank => ?_⟩
  exact Nat.le_trans (length_everything_mono fun peer => List.length_filter_le ..) few

/-- Ranks without a limit can send all questions and answers that they can count. -/
theorem Inquirable.askable {route : Fin size → VertexId → Except Failure Nat}
    {ids : Fin size → List VertexId} (counted : Inquirable route ids) {members : Fin size → Member size}
    (free : ∀ rank, (members rank).memory = none) : Askable members route ids := by
  -- The largest buffer holds as many items as can be counted, so that the counts are all that matters.
  have holds : ∀ rank, (members rank).Holds Count.most := fun rank =>
    Member.holds_of_unlimited (free rank) (Nat.le_refl _)
  exact ⟨fun rank => (holds rank).carries Wire.vertex (counted.asks rank) (counted.asked rank),
    fun rank => (holds rank).carries Wire.reply (counted.asked rank) (counted.asks rank)⟩

end Numbering

end DistGraph
