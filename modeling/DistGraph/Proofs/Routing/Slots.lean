import DistGraph.Proofs.Routing.Grouping

/-! Items that are grouped take every slot once, and come out destination by destination. -/

namespace DistGraph

variable {size : Nat} {α : Type}

namespace Grouping

/-- The slots that are kept for one group each, one group after the other. -/
theorem flatten_zipWith_firstSlots (start : Nat) (counts : List Nat) :
    (List.zipWith List.range' (firstSlots start counts) counts).flatten =
      List.range' start counts.sum := by
  -- A group starts where the one before it ends, so their slots join without a gap.
  induction counts generalizing start with
  | nil => rfl
  | cons count counts ih =>
    rw [firstSlots, List.zipWith_cons_cons, List.flatten_cons, ih, List.range'_append_1, List.sum_cons]

/-- Every item takes one slot. -/
theorem length_takeSlots {free : Array Nat} {destinations slots : List Nat}
    (taken : takeSlots free destinations = .ok slots) : slots.length = destinations.length := by
  -- By induction on the destinations, each of which takes a slot or stops.
  induction destinations generalizing free slots with
  | nil =>
    cases taken
    rfl
  | cons destination destinations ih =>
    obtain ⟨_, _, taken⟩ := bind_eq_ok_iff.mp taken
    obtain ⟨later, takenLater, made⟩ := bind_eq_ok_iff.mp taken
    cases made
    rw [List.length_cons, List.length_cons, ih takenLater]

/-- Items take as many free slots of every rank as there are items for it, starting with the first. -/
theorem takeSlots_perm {free : Array Nat} {destinations slots : List Nat} (counters : free.size = size)
    (taken : takeSlots free destinations = .ok slots) :
    slots.Perm (everything fun rank : Fin size =>
      List.range' free[rank.val] (destinations.count rank.val)) := by
  -- One item takes the first slot of its rank; the rest takes slots with the counter of that rank raised.
  induction destinations generalizing free slots with
  | nil =>
    cases taken
    simp [everything]
  | cons destination destinations ih =>
    obtain ⟨⟨slot, raised⟩, bumped, taken⟩ := bind_eq_ok_iff.mp taken
    obtain ⟨later, takenLater, made⟩ := bind_eq_ok_iff.mp taken
    cases made
    unfold bump at bumped
    split at bumped
    · rename_i inside
      cases bumped
      have rest := ih (by rw [Array.size_set, counters]) takenLater
      -- The slot taken now comes before the slots that the later items of this rank take.
      refine .trans (rest.cons _) (everything_cons_perm ⟨destination, counters ▸ inside⟩ ?_ ?_).symm
      · -- The slot that was free first is followed by those that are free afterwards.
        simp [List.range'_succ]
      · intro other different
        have apart : destination ≠ other.val := fun same => different (Fin.ext same.symm)
        rw [List.count_cons_of_ne apart, Array.getElem_set_ne _ _ apart]
    · cases bumped

/-- The slots that a list of items takes in a buffer of their number are all slots of it. -/
theorem takeSlots_perm_range {destinations slots : List Nat} {numbers : Array Nat}
    (tallied : tally size destinations = .ok numbers)
    (taken : takeSlots (firstSlots 0 numbers.toList).toArray destinations = .ok slots) :
    slots.Perm (List.range destinations.length) := by
  -- The groups' slots are put side by side, and the tally is the length of each of them.
  obtain ⟨-, numbered⟩ := tally_eq_ok_iff.mp tallied
  have counters : (firstSlots 0 numbers.toList).toArray.size = size := by
    rw [List.size_toArray, length_firstSlots, numbered, List.length_ofFn]
  have groups := takeSlots_perm counters taken
  have listed : (List.ofFn fun rank : Fin size =>
      List.range' (firstSlots 0 numbers.toList).toArray[rank.val] (destinations.count rank.val)) =
      List.zipWith List.range' (firstSlots 0 numbers.toList) numbers.toList := by
    apply List.ext_getElem
    · simp [length_firstSlots, numbered]
    · intro rank _ _
      simp [numbered]
  rw [everything, listed, flatten_zipWith_firstSlots] at groups
  -- As many slots are taken as are kept for all groups.
  have total := groups.length_eq
  rw [List.length_range', length_takeSlots taken] at total
  rwa [← total, ← List.range_eq_range'] at groups

/-- The first item without a destination ends the grouping with its error. -/
theorem group_eq_error [Inhabited α] {destination : α → Except Failure Nat} {front back : List α}
    {item : α} {error : Failure} (fronted : ∀ earlier ∈ front, ∃ rank, destination earlier = .ok rank)
    (failed : destination item = .error error) :
    group size destination (front ++ item :: back) = .error error := by
  -- Nothing is counted before all destinations are known.
  unfold group
  rw [mapM_eq_error fronted failed]
  rfl

/-- Items that are grouped have destinations, and the destinations have slots. -/
theorem exists_slots_of_group [Inhabited α] {destination : α → Except Failure Nat} {items : List α}
    {grouped : Grouped α} (made : group size destination items = .ok grouped) :
    ∃ destinations numbers slots, items.mapM destination = .ok destinations ∧
      tally size destinations = .ok numbers ∧
      takeSlots (firstSlots 0 numbers.toList).toArray destinations = .ok slots := by
  -- Grouping finds destinations, tallies them and takes slots before it places anything.
  unfold group at made
  obtain ⟨destinations, named, made⟩ := bind_eq_ok_iff.mp made
  obtain ⟨numbers, tallied, made⟩ := bind_eq_ok_iff.mp made
  obtain ⟨slots, taken, -⟩ := bind_eq_ok_iff.mp made
  exact ⟨destinations, numbers, slots, named, Failure.ofDefect_eq_ok_iff.mp tallied,
    Failure.ofDefect_eq_ok_iff.mp taken⟩

/-- Items are grouped as filters by destination do it: every slot of the buffer is taken once, and the
first item without a destination decides the error. -/
theorem group_exact [Inhabited α] (size : Nat) (destination : α → Except Failure Nat) (items : List α) :
    ((∀ item ∈ items, ∃ rank < size, destination item = .ok rank) → items.length < 2 ^ 31 →
      ∃ destinations numbers slots grouped, items.mapM destination = .ok destinations ∧
        tally size destinations = .ok numbers ∧
        takeSlots (firstSlots 0 numbers.toList).toArray destinations = .ok slots ∧
        slots.Perm (List.range items.length) ∧
        group size destination items = .ok grouped ∧
        grouped.items = (List.range size).flatMap (fun rank =>
          items.filter fun item => destination item = .ok rank) ∧
        grouped.counts.map Int32.toInt = (List.range size).map fun rank =>
          ((items.filter fun item => destination item = .ok rank).length : Int)) ∧
    ∀ front item back error, items = front ++ item :: back →
      (∀ earlier ∈ front, ∃ rank, destination earlier = .ok rank) → destination item = .error error →
      group size destination items = .error error := by
  constructor
  · intro goes few
    have small : ∀ rank : Fin size, (bound destination items rank).length ≤ Count.most := fun rank =>
      Nat.le_trans (List.length_filter_le _ _) (Nat.le_of_lt_succ few)
    have ranked : ∀ item ∈ items, ∃ rank : Fin size, destination item = .ok rank.val := by
      intro item member
      obtain ⟨rank, inside, known⟩ := goes item member
      exact ⟨⟨rank, inside⟩, known⟩
    -- What the grouping comes to is known already; it tells that the slots were taken as well.
    have made := group_eq_ok_iff.mpr ⟨ranked, small, rfl⟩
    obtain ⟨destinations, numbers, slots, named, tallied, taken⟩ := exists_slots_of_group made
    have length : destinations.length = items.length := by
      choose! rank known using goes
      rw [mapM_eq_ok fun item member => (known item member).2, Except.ok.injEq] at named
      rw [← named, List.length_map]
    -- Slots are a permutation because each destination takes as many as it was tallied.
    have once := length ▸ takeSlots_perm_range tallied taken
    have filtered := @everything_val size α fun rank =>
      items.filter fun item => destination item = .ok rank
    refine ⟨destinations, numbers, slots, _, named, tallied, taken, once, made, filtered, ?_⟩
    have counted : ∀ rank : Fin size,
        (Int32.ofNat (bound destination items rank).length).toInt = (bound destination items rank).length :=
      fun rank => Count.toInt_ofNat (small rank)
    -- Counts are compared place by place, each as the number that its word stands for.
    apply List.ext_getElem
    · simp
    · intro rank inside _
      simp only [Grouped.counts_ofGroups, Communicator.announced, List.getElem_map, List.getElem_ofFn, counted,
        List.getElem_range]
      rfl
  · rintro front item back error rfl fronted failed
    exact group_eq_error fronted failed

/-- Numbers grouped by their remainder, of which one remainder does not occur, and zero, which has none. -/
theorem group_exact_sample :
    let destination (number : Nat) : Except Failure Nat :=
      if number = 0 then .error (.graph (.outOfMemory 0 0)) else .ok (number % 4)
    ((∀ item ∈ [5, 4, 7, 9, 8], ∃ rank < 4, destination item = .ok rank) ∧
      [5, 4, 7, 9, 8].length < 2 ^ 31) ∧
    (∃ grouped, group 4 destination [5, 4, 7, 9, 8] = .ok grouped ∧ grouped.items = [4, 8, 5, 9, 7] ∧
      grouped.counts.map Int32.toInt = [2, 2, 0, 1]) ∧
    group 4 destination [5, 4, 0, 9] = .error (.graph (.outOfMemory 0 0)) := by
  intro destination
  -- Without zero every number has a remainder to go to.
  have goes : ∀ item ∈ [5, 4, 7, 9, 8], ∃ rank < 4, destination item = .ok rank := by decide
  have few : [5, 4, 7, 9, 8].length < 2 ^ 31 := by decide
  obtain ⟨_, _, _, grouped, _, _, _, _, made, items, counts⟩ :=
    (group_exact 4 destination [5, 4, 7, 9, 8]).1 goes few
  have failed := (group_exact 4 destination [5, 4, 0, 9]).2 [5, 4] 0 [9] (.graph (.outOfMemory 0 0)) rfl
    (by simp [destination]) rfl
  exact ⟨⟨goes, few⟩, ⟨grouped, made, items, counts⟩, failed⟩

end Grouping

end DistGraph
