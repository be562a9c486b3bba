import Mathlib.Data.List.OfFn
import Mathlib.Tactic.Choose
import DistGraph.Communicator
import DistGraph.Proofs.Cluster.Together
import DistGraph.Proofs.Everything
import DistGraph.Error
import DistGraph.Proofs.Word

/-! What the ranks compute together in each collective. -/

namespace DistGraph

variable {size : Nat}

/-- Buffers are granted by the memory of a rank alone. -/
theorem Member.makeRoom_congr {member other : Member size} (memory : other.memory = member.memory) :
    other.makeRoom = member.makeRoom := by
  unfold Member.makeRoom
  rw [memory]

namespace Count

/-- The greatest number of items that a count can stand for. -/
def most : Nat := 2 ^ 31 - 1

/-- Small numbers are counts. -/
theorem toInt_ofNat {number : Nat} (small : number ≤ most) :
    (Int32.ofNat number).toInt = number :=
  Int32.toInt_ofNat_of_lt (by unfold most at small; omega)

/-- Counts of small numbers are not negative. -/
theorem toNatClampNeg_ofNat {number : Nat} (small : number ≤ most) :
    (Int32.ofNat number).toNatClampNeg = number :=
  Int32.toNatClampNeg_ofNat_of_lt (by unfold most at small; omega)

/-- The length that a count stands for is its number. -/
theorem toNat_length_ofNat {number : Nat} (small : number ≤ most) :
    (length (Int32.ofNat number)).toNat = number := by
  unfold most at small
  rw [length, Int32.toInt64_ofNat' (by rw [Int32.toInt_maxValue]; omega), Int64.toUInt64_ofNat']
  exact UInt64.toNat_ofNat_of_lt' (by simp only [UInt64.size]; omega)

/-- Two numbers are added exactly when their sum is a count. -/
theorem add_ofNat {left right : Nat} (leftSmall : left ≤ most) (rightSmall : right ≤ most) :
    add (Int32.ofNat left) (Int32.ofNat right) =
      if left + right ≤ most then .ok (Int32.ofNat (left + right)) else .error .overflow := by
  unfold add
  rw [toInt_ofNat leftSmall, toInt_ofNat rightSmall, Int32.toInt_maxValue]
  -- Numbers that are not negative have no sum that is too low.
  have lower : Int32.minValue.toInt ≤ (left : Int) + right := by
    have : Int32.minValue.toInt = -2147483648 := by decide
    omega
  unfold most
  split
  · rw [if_pos (by omega), ← Int32.ofInt_eq_ofNat, Int.natCast_add]
  · rw [if_neg (by omega)]

/-- Counts have totals exactly when all of them together are a count. -/
theorem totals_ofNat (start : Nat) (numbers : List Nat) (startSmall : start ≤ most)
    (small : ∀ number ∈ numbers, number ≤ most) :
    (∃ ends, totals (Int32.ofNat start) (numbers.map Int32.ofNat) = .ok ends) ↔
      start + numbers.sum ≤ most := by
  induction numbers generalizing start with
  | nil => simpa [totals] using startSmall
  | cons number numbers ih =>
    simp only [List.map_cons, totals, List.sum_cons, bind_eq_ok_iff,
      add_ofNat startSmall (small number (by simp))]
    -- What is added up so far is where the totals of the rest start.
    have rest := fun fits => ih (start + number) fits fun later member =>
      small later (by simp [member])
    constructor
    · intro ⟨ends, total, added, others, known, _⟩
      split at added
      · rename_i fits
        cases added
        have := (rest fits).mp ⟨others, known⟩
        omega
      · simp at added
    · intro fits
      obtain ⟨others, known⟩ := (rest (by omega)).mpr (by omega)
      refine ⟨Int32.ofNat (start + number) :: others, _, if_pos (by omega), others, known, rfl⟩

/-- All counted items together have a length exactly when it fits a word. -/
theorem total_ofNat (numbers : List Nat) (room : UInt64)
    (small : ∀ number ∈ numbers, number ≤ most) :
    total (numbers.map Int32.ofNat) = .ok room ↔ numbers.sum = room.toNat := by
  -- Each count is widened to its own number.
  have lengths : (numbers.map Int32.ofNat |>.map length).map UInt64.toNat = numbers := by
    rw [List.map_map, List.map_map]
    refine (List.map_congr_left ?_).trans (List.map_id numbers)
    intro number member
    exact toNat_length_ofNat (small number member)
  rw [total, Word.sum_eq_ok_iff, lengths]

end Count

/-- Blocks that were put one after the other are cut off again. -/
theorem cutBlocks_flatten {α : Type} {blocks : List (List α)}
    (small : ∀ block ∈ blocks, block.length ≤ Count.most) :
    cutBlocks blocks.flatten (blocks.map fun block => Int32.ofNat block.length) = .ok blocks := by
  induction blocks with
  | nil => rfl
  | cons block blocks ih =>
    -- The first block is as long as its count says, so that the rest starts behind it.
    have first := small block (by simp)
    simp only [List.map_cons, List.flatten_cons, cutBlocks, Count.toInt_ofNat first,
      Count.toNatClampNeg_ofNat first]
    rw [if_pos (by simp only [List.length_append]; omega), List.drop_left, List.take_left,
      ih fun later member => small later (by simp [member])]
    rfl

/-- Blocks that keep to their counts fill a buffer with room for all of them. -/
theorem fillBlocks_zip {α : Type} {room : Nat} {peers : List Nat} (blocks : List (List α))
    (named : peers.length = blocks.length) (small : ∀ block ∈ blocks, block.length ≤ Count.most)
    (fits : blocks.flatten.length ≤ room) :
    fillBlocks room (peers.zip ((blocks.map fun block => Int32.ofNat block.length).zip blocks)) =
      .ok blocks.flatten := by
  induction blocks generalizing room peers with
  | nil => simp [fillBlocks]
  | cons block blocks ih =>
    cases peers with
    | nil => simp at named
    | cons peer peers =>
      have length := small block (by simp)
      simp only [List.length_cons, Nat.add_right_cancel_iff] at named
      simp only [List.flatten_cons, List.length_append] at fits
      simp only [List.map_cons, List.zip_cons_cons, fillBlocks, Count.toNat_length_ofNat length]
      -- The block has the announced length, and there is room left for it and the ones behind.
      rw [if_neg (by simp), if_neg (by omega),
        ih named (fun later member => small later (by simp [member])) (by omega)]
      rfl

namespace Communicator

section Gathering

variable [Payloads]

/-- What all ranks are sent alike is received by each of them. -/
theorem delivered_replicate {call : Call} (values : Fin size → call.Item) :
    Cluster.delivered (fun rank : Fin size => (Vector.replicate size (values rank) : Vector call.Item size)) =
      fun _ => Vector.ofFn values := by
  funext rank
  simp [Cluster.delivered, Vector.get]

/-- Every rank is given the values of all ranks. -/
theorem allGather_computes (tag : Payloads.Tag) (values : Fin size → Payloads.Value tag) :
    Computes (fun rank => allGather tag (values rank)) (· = fun _ => Vector.ofFn values) := by
  -- Every rank puts its value at the place of every other.
  have issued := Computes.issue (.gather tag)
    fun rank : Fin size => (Vector.replicate size (values rank) : Vector (Call.gather tag).Item size)
  rw [delivered_replicate] at issued
  exact issued

/-- What a rank makes of the values of all ranks that it combines. -/
def folded {α : Type} (combine : α → α → Except Defect α) (value : α) : List α → Except Defect α
  -- Without ranks the value is left alone.
  | [] => .ok value
  | first :: others => others.foldlM combine first

variable (tag : Payloads.Tag)
  (combine : Payloads.Value tag → Payloads.Value tag → Except Defect (Payloads.Value tag))

/-- Values are gathered first, and then each rank combines them by itself. -/
theorem fold_eq (value : Payloads.Value tag) :
    (fold tag combine value : Program size Failure (Payloads.Value tag)) =
      (allGather tag value >>= fun values =>
        Program.ofExcept (Failure.ofDefect (folded combine value values.toList))) := by
  refine bind_congr fun values => ?_
  cases values.toList <;> rfl

/-- Every rank is given what the values of all ranks are combined to, if that succeeds. -/
theorem fold_computes (values : Fin size → Payloads.Value tag) :
    Computes (fun rank => fold tag combine (values rank)) fun results =>
      ∀ (rank : Fin size) first others, List.ofFn values = first :: others →
        others.foldlM combine first = .ok (results rank) := by
  -- All ranks combine the same list, which has the value of each of them.
  simp only [fold_eq]
  refine (allGather_computes tag values).after ((Computes.ofExcept _).congr fun results => ?_)
  simp only [Vector.toList_ofFn, Failure.ofDefect_eq_ok_iff]
  refine forall_congr' fun rank => ?_
  cases listed : List.ofFn values with
  | nil => exact absurd (congrArg List.length listed) (by simpa using Nat.ne_of_gt rank.pos)
  | cons first others => simp [folded]

end Gathering

/-- The greatest of some words, and zero if there is none. -/
def greatest (values : List UInt64) : UInt64 :=
  values.foldl (fun folded value => if folded < value then value else folded) 0

/-- The greatest value is no less than any. -/
theorem le_greatest (values : List UInt64) : ∀ value ∈ values, value ≤ greatest values := by
  -- The fold never falls below where it starts, nor below any entry.
  have grows : ∀ (values : List UInt64) (start : UInt64), (∀ value ∈ start :: values, value ≤
      values.foldl (fun folded value => if folded < value then value else folded) start) := by
    intro values
    induction values with
    | nil => simp
    | cons next values ih =>
      intro start value member
      have above := ih (if start < next then next else start)
      have chosen := above _ List.mem_cons_self
      rw [List.foldl_cons]
      rcases List.mem_cons.mp member with rfl | member
      · refine UInt64.le_trans ?_ chosen
        -- The fold keeps the greater one of what it has and what comes next.
        split
        · rename_i less
          exact UInt64.le_of_lt less
        · exact UInt64.le_refl _
      · rcases List.mem_cons.mp member with rfl | later
        · refine UInt64.le_trans ?_ chosen
          split
          · exact UInt64.le_refl _
          · rename_i notLess
            exact UInt64.not_lt.mp notLess
        · exact above value (List.mem_cons_of_mem _ later)
  intro value member
  exact grows values 0 value (List.mem_cons_of_mem _ member)

/-- Finding the greatest value always succeeds. -/
theorem folded_max (values : Fin size → UInt64) (rank : Fin size) :
    folded Reduction.max.combine (values rank) (List.ofFn values) = .ok (greatest (List.ofFn values)) := by
  have folds : ∀ (others : List UInt64) (first : UInt64), others.foldlM Reduction.max.combine first =
      .ok (others.foldl (fun folded value => if folded < value then value else folded) first) := by
    intro others
    induction others with
    | nil => exact fun first => rfl
    | cons next others ih => exact fun first => ih _
  cases listed : List.ofFn values with
  | nil => exact absurd (congrArg List.length listed) (by simpa using Nat.ne_of_gt rank.pos)
  | cons first others =>
    -- Starting from zero makes no difference to the greatest word.
    have start : (if (0 : UInt64) < first then first else 0) = first := by
      split
      · rfl
      · rename_i zero
        exact (UInt64.le_antisymm (UInt64.not_lt.mp zero) (UInt64.zero_le)).symm
    simp [folded, folds, greatest, start]

/-- Every rank is given the greatest of the values of all ranks. -/
theorem allReduce_max_computes (values : Fin size → UInt64) :
    Computes (fun rank => allReduce .max (values rank))
      (· = fun _ => greatest (List.ofFn values)) := by
  simp only [allReduce, fold_eq]
  -- All ranks fold the values of all ranks, starting from zero.
  refine (allGather_computes Wire.word values).after ((Computes.ofExcept _).congr fun results => ?_)
  simp only [Vector.toList_ofFn, folded_max, Failure.ofDefect_eq_ok_iff, Except.ok.injEq, funext_iff]
  exact forall_congr' fun rank => eq_comm

/-- The counts that announce groups of items. -/
def announced {α : Type} (groups : Fin size → List α) : List Int32 :=
  -- There is one group for every rank.
  List.ofFn fun peer => Int32.ofNat (groups peer).length

/-- There is one count for every rank. -/
@[simp] theorem length_announced {α : Type} (groups : Fin size → List α) :
    (announced groups).length = size := by
  simp [announced]

/-- Groups that are changed item by item are announced alike. -/
@[simp] theorem announced_map {α β : Type} (change : Fin size → α → β) (groups : Fin size → List α) :
    announced (fun peer => (groups peer).map (change peer)) = announced groups := by
  simp [announced]

/-- A count is announced for every group. -/
theorem announced_eq_map {α : Type} (groups : Fin size → List α) :
    announced groups = (List.ofFn groups).map fun group => Int32.ofNat group.length := by
  simp [announced, List.map_ofFn, Function.comp_def]

/-- Announced groups have totals exactly when all of them together are a count. -/
theorem totals_announced {α : Type} {groups : Fin size → List α}
    (small : ∀ peer, (groups peer).length ≤ Count.most) :
    (∃ ends, Count.totals 0 (announced groups) = .ok ends) ↔
      (everything groups).length ≤ Count.most := by
  have totals := Count.totals_ofNat 0 ((List.ofFn groups).map List.length)
    (by decide) (by simpa [List.mem_ofFn] using small)
  -- The groups are as long together as their lengths add up to.
  rw [announced_eq_map, everything, List.length_flatten]
  rw [List.map_map, Nat.zero_add] at totals
  exact totals

/-- Announced groups have a length exactly when that of all of them together fits a word. -/
theorem total_announced {α : Type} {groups : Fin size → List α} {room : UInt64}
    (small : ∀ peer, (groups peer).length ≤ Count.most) :
    Count.total (announced groups) = .ok room ↔ (everything groups).length = room.toNat := by
  have totals := Count.total_ofNat ((List.ofFn groups).map List.length) room
    (by simpa [List.mem_ofFn] using small)
  -- The groups are as long together as their lengths add up to.
  rw [announced_eq_map, everything, List.length_flatten]
  rw [List.map_map] at totals
  exact totals

section Blocks

variable [Payloads]

/-- Counts for all ranks are sent in one exchange. -/
theorem allToAll_eq (counts : Fin size → Int32) :
    (allToAll (List.ofFn counts) : Program size Failure (List Int32)) =
      Program.issue .counts (Vector.ofFn counts) >>= fun received => pure received.toList := by
  rw [allToAll, dif_pos (by simp)]
  -- The list of counts is a vector, since there is one for every rank.
  congr 2
  apply Vector.ext
  intro i inside
  simp

/-- What a rank receives are the entries at its place. -/
theorem toList_delivered (call : Call) (sent : Fin size → Fin size → call.Item) (rank : Fin size) :
    (Cluster.delivered (fun sender => (Vector.ofFn (sent sender) : Vector call.Item size)) rank).toList =
      List.ofFn fun peer => sent peer rank := by
  simp only [Cluster.delivered, Cluster.ofFn_get]
  exact Vector.toList_ofFn

/-- Every rank is given the counts at its place in what all ranks send. -/
theorem allToAll_computes (counts : Fin size → Fin size → Int32) :
    Computes (fun rank => allToAll (List.ofFn (counts rank)))
      (· = fun rank => List.ofFn fun peer => counts peer rank) := by
  simp only [allToAll_eq]
  -- What arrives at a rank is in its place in what every rank sent.
  have same : (fun rank : Fin size => List.ofFn fun peer => counts peer rank) =
      fun rank => (Cluster.delivered (fun sender =>
        (Vector.ofFn (counts sender) : Vector Call.counts.Item size)) rank).toList :=
    funext fun rank => (toList_delivered .counts counts rank).symm
  rw [same]
  exact (Computes.issue .counts _).after (Computes.pure _)

/-- A buffer is filled with groups that keep to their counts, if their counts have totals. -/
theorem fillBuffer_eq {tag : Payloads.Tag} {groups : Fin size → List (Payloads.Value tag)}
    (small : ∀ peer, (groups peer).length ≤ Count.most) :
    fillBuffer tag (everything groups).length (announced groups) (List.ofFn groups) =
      Failure.ofDefect ((Count.totals 0 (announced groups)).map fun _ => everything groups) := by
  -- The groups take up the whole buffer.
  have blocks := fillBlocks_zip (List.ofFn groups) (List.length_range (n := (List.ofFn groups).length))
    (by simpa [List.mem_ofFn] using small) (Nat.le_refl _)
  rw [← announced_eq_map] at blocks
  unfold fillBuffer
  rw [everything, blocks]
  cases Count.totals 0 (announced groups) with
  | error broken => rfl
  | ok ends => simp

/-- The buffer is filled exactly if there are not too many items. -/
theorem fillBuffer_eq_ok_iff {tag : Payloads.Tag} {groups : Fin size → List (Payloads.Value tag)}
    {filled : List (Payloads.Value tag)} (small : ∀ peer, (groups peer).length ≤ Count.most) :
    fillBuffer tag (everything groups).length (announced groups) (List.ofFn groups) = .ok filled ↔
      (everything groups).length ≤ Count.most ∧ filled = everything groups := by
  rw [fillBuffer_eq small, Failure.ofDefect_eq_ok_iff, ← totals_announced small]
  cases Count.totals 0 (announced groups) <;> simp [eq_comm]

section Groups

variable {tag : Payloads.Tag} {groups : Fin size → Fin size → List (Payloads.Value tag)}
  (small : ∀ sender receiver, (groups sender receiver).length ≤ Count.most)

include small

/-- The blocks that are cut off what a rank sends are its groups. -/
theorem allToAllV_eq (rank : Fin size) :
    allToAllV tag (everything (groups rank)) (announced (groups rank))
        (everything fun peer => groups peer rank).length (announced fun peer => groups peer rank) =
      (Program.ofExcept (Failure.ofDefect (Count.totals 0 (announced (groups rank)))) >>= fun _ =>
        Program.issue (.blocks tag) (Vector.ofFn (groups rank)) >>= fun received =>
        Program.ofExcept (fillBuffer tag (everything fun peer => groups peer rank).length
          (announced fun peer => groups peer rank) received.toList) :
        Program size Failure (List (Payloads.Value tag))) := by
  -- Cutting the items by their numbers gives the groups back.
  have cuts : cutBlocks (everything (groups rank)) (announced (groups rank)) =
      .ok (List.ofFn (groups rank)) := by
    rw [announced_eq_map]
    exact cutBlocks_flatten (by simpa [List.mem_ofFn] using small rank)
  rw [allToAllV, dif_pos (by simp), if_pos (by simp)]
  congr 1
  funext _
  split
  · rename_i broken
    simp [cuts] at broken
  · rename_i blocks cut
    rw [cuts, Except.ok.injEq] at cut
    subst cut
    congr 1
    congr 1
    apply Vector.ext
    intro i inside
    simp

/-- Every rank is given its groups from all ranks, if no rank sends or receives too many items. -/
theorem allToAllV_computes :
    Computes (fun rank => allToAllV tag (everything (groups rank)) (announced (groups rank))
        (everything fun peer => groups peer rank).length (announced fun peer => groups peer rank))
      fun results =>
        ((∀ rank, (everything (groups rank)).length ≤ Count.most) ∧
          ∀ rank, (everything fun peer => groups peer rank).length ≤ Count.most) ∧
        results = fun rank => everything fun peer => groups peer rank := by
  -- Numbers to send are added up before the exchange, and those received behind it.
  simp only [allToAllV_eq small]
  refine (Computes.bind (fun _ results => ∀ rank,
    (everything fun peer => groups peer rank).length ≤ Count.most ∧
      results rank = everything fun peer => groups peer rank)
    (Computes.ofExcept _) fun ends known => ?_).congr fun results => ?_
  · refine (Computes.issue (.blocks tag) _).after ?_
    refine (Computes.ofExcept _).congr fun results => forall_congr' fun rank => ?_
    rw [toList_delivered (.blocks tag)]
    exact fillBuffer_eq_ok_iff fun peer => small peer rank
  · simp only [Failure.ofDefect_eq_ok_iff]
    constructor
    · rintro ⟨ends, known, filled⟩
      exact ⟨⟨fun rank => (totals_announced (small rank)).mp ⟨_, known rank⟩,
        fun rank => (filled rank).1⟩, funext fun rank => (filled rank).2⟩
    · rintro ⟨⟨sends, receives⟩, rfl⟩
      choose ends known using fun rank => (totals_announced (small rank)).mpr (sends rank)
      exact ⟨ends, known, fun rank => ⟨receives rank, rfl⟩⟩

end Groups

end Blocks

end Communicator

end DistGraph
