import Mathlib.Algebra.BigOperators.Ring.Finset
import Mathlib.Data.List.GetD
import Mathlib.Data.List.SplitLengths
import DistGraph.Proofs.Routing.Delivery

/-! Every question is answered by the rank it was sent to, and its answer comes back to its place. -/

namespace DistGraph

variable {size : Nat} {α β : Type}

namespace Grouped

/-- Whether the counts of groups are in order: one for every rank, none negative, for all items there are. -/
structure Shaped (size : Nat) (grouped : Grouped α) : Prop where
  /-- Every rank has a count. -/
  ranks : grouped.counts.length = size
  /-- No count is negative. -/
  positive : ∀ count ∈ grouped.counts, 0 ≤ count
  /-- The items are as many as are counted. -/
  exhausted : (grouped.counts.map Int32.toInt).sum = grouped.items.length

/-- The number of items for a rank, as its count tells. -/
def countFor (grouped : Grouped α) (rank : Fin size) : Int :=
  -- Ranks beyond the counts have no items.
  (grouped.counts.getD rank 0).toInt

/-- The position at which the group of a rank starts, as told by the counts before its own. -/
def start (grouped : Grouped α) (rank : Nat) : Int :=
  -- Groups follow one another without gaps.
  ((grouped.counts.take rank).map Int32.toInt).sum

/-- Whether a position lies in the group of a rank. -/
def InGroup (grouped : Grouped α) (rank : Fin size) (position : Nat) : Prop :=
  -- A group ends where the next one starts.
  grouped.start rank ≤ position ∧ position < grouped.start (rank + 1)

instance (grouped : Grouped α) (rank : Fin size) (position : Nat) :
    Decidable (grouped.InGroup rank position) :=
  inferInstanceAs (Decidable (_ ∧ _))

/-- Items are cut into groups of any lengths that add up to their number. -/
theorem exists_groups_of_sum {items : List α} {lengths : Fin size → Nat}
    (total : (List.ofFn lengths).sum = items.length) :
    ∃ groups : Fin size → List α, everything groups = items ∧ ∀ rank, (groups rank).length = lengths rank := by
  let pieces := (List.ofFn lengths).splitLengths items
  have many : pieces.length = size := by simp [pieces]
  -- Every rank is given the piece at its place.
  refine ⟨fun rank => pieces.get (rank.cast many.symm), ?_, fun rank => ?_⟩
  · have held : (List.ofFn fun rank : Fin size => pieces.get (rank.cast many.symm)) = pieces :=
      List.ext_getElem (by simp [many]) (by simp)
    rw [everything, held, List.flatten_splitLengths _ _ (Nat.le_of_eq total.symm)]
  · exact (List.splitLengths_length_getElem items _ (Nat.le_of_eq total) _ _).trans (by simp)

/-- Counts that are in order cut the items into groups. -/
theorem Shaped.exists_groups {grouped : Grouped α} (shaped : grouped.Shaped size) :
    ∃ groups : Fin size → List α, grouped = .ofGroups groups ∧
      ∀ rank, ((groups rank).length : Int) = grouped.countFor rank := by
  obtain ⟨items, counts⟩ := grouped
  obtain ⟨ranks, positive, exhausted⟩ := shaped
  dsimp only at ranks positive exhausted
  -- Counts that are not negative are lengths, which say how to cut.
  obtain ⟨numbers, rfl⟩ : ∃ numbers : Fin size → Int32, counts = List.ofFn numbers :=
    ⟨fun rank => counts[rank.val], List.ext_getElem (by simp [ranks]) (by simp)⟩
  have natural : ∀ rank, 0 ≤ numbers rank := fun rank => positive _ (List.mem_ofFn.mpr ⟨rank, rfl⟩)
  have total : (List.ofFn fun rank => (numbers rank).toNatClampNeg).sum = items.length := by
    rw [← Int.natCast_inj, ← exhausted, Nat.cast_list_sum, List.map_ofFn, List.map_ofFn]
    exact congrArg (fun each => (List.ofFn each).sum) (funext fun rank =>
      (Int32.toInt_eq_toNatClampNeg (natural rank)).symm)
  obtain ⟨groups, held, lengths⟩ := exists_groups_of_sum total
  refine ⟨groups, ?_, fun rank => ?_⟩
  · simp only [ofGroups, held, Communicator.announced, lengths, Int32.ofNat_toNatClampNeg _ (natural _)]
  · rw [lengths, countFor, List.getD_eq_getElem _ _ (by simp), List.getElem_ofFn,
      Int32.toInt_eq_toNatClampNeg (natural rank)]

/-- The group of a rank starts after those of all lower ranks. -/
theorem start_ofGroups {groups : Fin size → List α} (small : ∀ rank, (groups rank).length ≤ Count.most)
    (rank : Nat) : (ofGroups groups).start rank = before groups rank := by
  -- Small groups have counts that tell their lengths.
  have lengths : ∀ group ∈ (List.ofFn groups).take rank,
      (Int32.ofNat group.length).toInt = (group.length : Int) := by
    intro group member
    obtain ⟨peer, rfl⟩ := List.mem_ofFn.mp (List.mem_of_mem_take member)
    exact Count.toInt_ofNat (small peer)
  rw [start, ofGroups, Communicator.announced_eq_map, before, List.length_flatten, Nat.cast_list_sum,
    ← List.map_take, List.map_map, List.map_map]
  exact congrArg List.sum (List.map_congr_left lengths)

/-- Groups that are changed item by item keep their numbers. -/
theorem map_ofGroups (groups : Fin size → List α) (change : α → β) :
    (⟨(ofGroups groups).items.map change, (ofGroups groups).counts⟩ : Grouped β) =
      ofGroups fun rank => (groups rank).map change := by
  -- A change neither adds nor drops an item.
  simp [ofGroups, map_everything]

end Grouped

namespace Routing

section Consulting

variable [Payloads]

/-- Asks every rank the questions of its group, and gets back what it answers to each of them. -/
def consult (self : Member size) (tag answers : Payloads.Tag) (asked : Grouped (Payloads.Value tag))
    (answer : Payloads.Value tag → Payloads.Value answers) :
    Program size Failure (List (Payloads.Value answers)) := do
  let requests ← sendGroups self tag asked
  -- Answers go back in the order of the questions, in groups that are as long as theirs.
  sendBack self answers ⟨requests.items.map answer, requests.counts⟩ asked.counts

/-- Every question is answered by the rank it goes to, unless some rank cannot carry them. -/
theorem consult_computes (members : Fin size → Member size) (tag answers : Payloads.Tag)
    {groups : Fin size → Fin size → List (Payloads.Value tag)}
    (small : ∀ sender receiver, (groups sender receiver).length ≤ Count.most)
    (answer : Fin size → Payloads.Value tag → Payloads.Value answers) :
    Computes (fun rank => consult (members rank) tag answers (.ofGroups (groups rank)) (answer rank))
      fun replies =>
        (∀ rank, (members rank).Carries tag (everything (groups rank)).length
          (everything fun peer => groups peer rank).length) ∧
        (∀ rank, (members rank).Carries answers (everything fun peer => groups peer rank).length
          (everything (groups rank)).length) ∧
        replies = fun rank => everything fun peer => (groups rank peer).map (answer peer) := by
  -- Answers go the other way, from the receiver of a question to its sender.
  let turned : Fin size → Fin size → List (Payloads.Value answers) := fun receiver sender =>
    (groups sender receiver).map (answer receiver)
  refine (sendGroups_computes members tag small).afterIf _ fun _ => ?_
  have turnedSmall : ∀ receiver sender, (turned receiver sender).length ≤ Count.most :=
    fun receiver sender => by simpa [turned] using small sender receiver
  have sizes : ∀ held : Fin size → List (Payloads.Value tag),
      ∀ change : Fin size → Payloads.Value tag → Payloads.Value answers,
      (everything fun peer => (held peer).map (change peer)).length = (everything held).length := by
    intro held change
    simp [length_everything]
  have expected : ∀ rank, (Grouped.ofGroups (groups rank)).counts =
      Communicator.announced fun peer => turned peer rank := by
    intro rank
    simp [turned]
  simp only [Grouped.map_ofGroups, expected]
  refine (sendBack_computes members answers turnedSmall).congr fun replies => ?_
  simp only [turned, sizes]

end Consulting

section Positions

variable {groups : Fin size → List α} (small : ∀ rank, (groups rank).length ≤ Count.most)

include small

/-- The group of a rank takes up the positions behind all groups before it. -/
theorem inGroup_iff {rank : Fin size} {position : Nat} :
    (Grouped.ofGroups groups).InGroup rank position ↔
      before groups rank ≤ position ∧ position < before groups rank + (groups rank).length := by
  rw [Grouped.InGroup, Grouped.start_ofGroups small, Grouped.start_ofGroups small, Int.ofNat_le,
    Int.ofNat_lt, before_add_length]

/-- Every item is in the group of one rank. -/
theorem existsUnique_inGroup {position : Nat} (inside : position < (everything groups).length) :
    ∃! rank : Fin size, (Grouped.ofGroups groups).InGroup rank position := by
  obtain ⟨home, reached, left⟩ := exists_rank_of_lt groups inside
  rw [before_add_length] at left
  refine ⟨home, (inGroup_iff small).mpr ⟨reached, left⟩, fun other held => ?_⟩
  obtain ⟨otherReached, otherLeft⟩ := (inGroup_iff small).mp held
  -- A group ends before that of any higher rank starts.
  rcases lt_trichotomy other home with lower | same | higher
  · have ends := before_add_length_le groups (Fin.lt_def.mp lower)
    omega
  · exact same
  · have ends := before_add_length_le groups (Fin.lt_def.mp higher)
    omega

/-- Items that each rank changes in its own way stay at their positions. -/
theorem getElem?_map_of_inGroup {rank : Fin size} {position : Nat}
    (held : (Grouped.ofGroups groups).InGroup rank position) (change : Fin size → α → β) :
    (everything fun rank => (groups rank).map (change rank))[position]? =
      (everything groups)[position]?.map (change rank) := by
  obtain ⟨reached, left⟩ := (inGroup_iff small).mp held
  obtain ⟨place, rfl⟩ := Nat.exists_eq_add_of_le reached
  have own : place < (groups rank).length := by omega
  -- Changing items moves none of them.
  have starts : before (fun rank => (groups rank).map (change rank)) rank = before groups rank := by
    simp [before, List.length_flatten, List.map_take, List.map_ofFn, Function.comp_def]
  have changedOwn : place < ((groups rank).map (change rank)).length := by simpa using own
  have changed := getElem?_everything (fun rank => (groups rank).map (change rank)) rank changedOwn
  rw [starts] at changed
  rw [changed, List.getElem?_map, getElem?_everything groups rank own]

end Positions

/-- Ranks without a limit get an answer to each of their questions, at the position of the question and by
the rank whose group it is in, however many questions there are for each rank. -/
theorem consult_aligned [Payloads] (members : Fin size → Member size)
    (free : ∀ rank, (members rank).memory = none) (tag answers : Payloads.Tag)
    (asked : Fin size → Grouped (Payloads.Value tag)) (shaped : ∀ rank, (asked rank).Shaped size)
    (sends : ∀ rank, (asked rank).items.length < 2 ^ 31)
    (receives : ∀ rank : Fin size, (List.ofFn fun peer => (asked peer).countFor rank).sum < 2 ^ 31)
    (answer : Fin size → Payloads.Value tag → Payloads.Value answers)
    (run : Cluster.Run (Vector.ofFn fun rank =>
      consult (members rank) tag answers (asked rank) (answer rank))) :
    ∃ replies : Fin size → List (Payloads.Value answers), ∀ rank,
      run.outcome rank = some (.ok (replies rank)) ∧
      (replies rank).length = (asked rank).items.length ∧
      ∀ position (inside : position < (asked rank).items.length),
        (∃! peer : Fin size, (asked rank).InGroup peer position) ∧
        ∀ peer : Fin size, (asked rank).InGroup peer position →
          (replies rank)[position]? = some (answer peer (asked rank).items[position]) := by
  -- Questions are told apart by the ranks they go to, and counted in both directions.
  choose groups grouped lengths using fun rank => (shaped rank).exists_groups
  obtain rfl : asked = fun rank => .ofGroups (groups rank) := funext grouped
  have few : ∀ rank, (everything (groups rank)).length ≤ Count.most := fun rank =>
    Nat.le_pred_of_lt (sends rank)
  have small : ∀ sender receiver, (groups sender receiver).length ≤ Count.most := fun sender receiver =>
    Nat.le_trans (length_le_everything (groups sender) receiver) (few sender)
  have received : ∀ rank, (everything fun peer => groups peer rank).length ≤ Count.most := by
    intro rank
    have total := receives rank
    simp only [← lengths] at total
    have length : ((everything fun peer => groups peer rank).length : Int) < 2 ^ 31 := by
      rw [length_everything, Nat.cast_list_sum, List.map_ofFn]
      exact total
    exact Nat.le_pred_of_lt (by exact_mod_cast length)
  -- Nothing is then left that could keep the ranks from answering.
  have together := (consult_computes members tag answers small answer).together_iff.mpr
    ⟨fun rank => Member.carries_of_unlimited (free rank) tag (few rank) (received rank),
      fun rank => Member.carries_of_unlimited (free rank) answers (received rank) (few rank), rfl⟩
  refine ⟨_, fun rank => ⟨run.together_iff.mpr together rank, ?_, fun position inside => ?_⟩⟩
  · simp [length_everything]
  · -- A position lies in one group, and each reply is what the rank of that group made of the question.
    refine ⟨existsUnique_inGroup (small rank) inside, fun peer held => ?_⟩
    rw [getElem?_map_of_inGroup (small rank) held]
    exact congrArg (Option.map (answer peer)) (List.getElem?_eq_getElem inside)

/-- Two ranks that add different words to what they are asked answer each question by their own. -/
theorem consult_aligned_sample :
    let members : Fin 2 → Member 2 := fun rank => { rank, memory := none }
    let asked : Fin 2 → Grouped UInt64 := ![⟨[1, 2, 3], [1, 2]⟩, ⟨[4], [0, 1]⟩]
    let answer : Fin 2 → UInt64 → UInt64 := fun rank word => word + ![10, 20] rank
    ∃ (run : Cluster.Run (Vector.ofFn fun rank : Fin 2 =>
        consult (members rank) Wire.word Wire.word (asked rank) (answer rank)))
      (replies : Fin 2 → List UInt64),
      (∀ rank, run.outcome rank = some (.ok (replies rank))) ∧
      (replies 0).length = 3 ∧ (replies 0)[0]? = some 11 ∧ (replies 0)[2]? = some 23 ∧
      (replies 1).length = 1 ∧ (replies 1)[0]? = some 24 := by
  intro members asked answer
  obtain ⟨run⟩ := Cluster.Run.exists_of_programs (Vector.ofFn fun rank : Fin 2 =>
    consult (members rank) Wire.word Wire.word (asked rank) (answer rank))
  -- Each rank asks as many questions as its counts add up to.
  have shaped : ∀ rank, (asked rank).Shaped 2 := Fin.forall_fin_two.mpr
    ⟨⟨rfl, by simp [asked], by decide⟩, ⟨rfl, by simp [asked], by decide⟩⟩
  obtain ⟨replies, aligned⟩ := consult_aligned members (fun _ => rfl) Wire.word Wire.word asked shaped
    (by decide) (by decide) answer run
  obtain ⟨-, length, placed⟩ := aligned 0
  obtain ⟨-, otherLength, otherPlaced⟩ := aligned 1
  exact ⟨run, replies, fun rank => (aligned rank).1, length, (placed 0 (by decide)).2 0 (by decide),
    (placed 2 (by decide)).2 1 (by decide), otherLength, (otherPlaced 0 (by decide)).2 1 (by decide)⟩

end Routing

end DistGraph
