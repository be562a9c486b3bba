import DistGraph.Proofs.Communicator
import DistGraph.Routing.Grouping

/-! Grouping by destination keeps every item, and the order of the items of one destination. -/

namespace DistGraph

variable {size : Nat} {α : Type}

/-- Groups of items, one for every rank, with their numbers. -/
def Grouped.ofGroups (groups : Fin size → List α) : Grouped α :=
  ⟨everything groups, Communicator.announced groups⟩

/-- The items of groups come group by group. -/
@[simp] theorem Grouped.items_ofGroups (groups : Fin size → List α) :
    (Grouped.ofGroups groups).items = everything groups := rfl

/-- Groups come with their lengths. -/
@[simp] theorem Grouped.counts_ofGroups (groups : Fin size → List α) :
    (Grouped.ofGroups groups).counts = Communicator.announced groups := rfl

namespace Grouping

/-- Counters are raised by one for every destination, as long as each destination has one. -/
theorem tally_from {counters raised : Array Nat} {destinations : List Nat} :
    destinations.foldlM (fun counters destination => do
        let (_, raised) ← bump counters destination
        return raised) counters = .ok raised ↔
      (∀ destination ∈ destinations, destination < counters.size) ∧
        raised = counters.mapIdx fun index number => number + destinations.count index := by
  -- By induction on the destinations, from counters that may have been raised before.
  induction destinations generalizing counters with
  | nil =>
    have same : (counters.mapIdx fun index number => number + ([] : List Nat).count index) =
        counters := by
      apply Array.ext
      · simp
      · intro index _ _
        simp
    rw [same]
    simp [eq_comm]
  | cons destination destinations ih =>
    rw [List.foldlM_cons]
    by_cases inside : destination < counters.size
    · have bumped : bump counters destination =
          .ok (counters[destination], counters.set destination (counters[destination] + 1)) :=
        dif_pos inside
      -- The destination's own counter is one ahead in what follows.
      have ahead : ((counters.set destination (counters[destination] + 1)).mapIdx
          fun index number => number + destinations.count index) =
          counters.mapIdx fun index number => number + (destination :: destinations).count index := by
        apply Array.ext
        · simp
        · intro index _ within
          simp only [Array.size_mapIdx] at within
          simp only [Array.getElem_mapIdx, Array.getElem_set, List.count_cons, beq_iff_eq]
          split
          · rename_i same
            subst same
            omega
          · omega
      rw [bumped]
      apply ih.trans
      rw [ahead, Array.size_set, List.forall_mem_cons]
      exact ⟨fun ⟨others, same⟩ => ⟨⟨inside, others⟩, same⟩, fun ⟨⟨_, others⟩, same⟩ => ⟨others, same⟩⟩
    · have refused : bump counters destination = .error .outOfRange := dif_neg inside
      rw [refused]
      simp [inside]

/-- Destinations are tallied exactly if all of them are ranks. -/
theorem tally_eq_ok_iff {numbers : Array Nat} {destinations : List Nat} :
    tally size destinations = .ok numbers ↔
      (∀ destination ∈ destinations, destination < size) ∧
        numbers.toList = List.ofFn fun rank : Fin size => destinations.count rank.val := by
  rw [tally, tally_from, ← Array.toList_inj]
  -- Counting starts from zeros, so that the counters hold what has been counted.
  have same : ((Array.replicate size 0).mapIdx
      fun index number => number + destinations.count index).toList =
      List.ofFn fun rank : Fin size => destinations.count rank.val := by
    apply List.ext_getElem
    · simp
    · intro index _ _
      simp
  rw [same]
  simp

/-- A group starts behind all groups before it. -/
theorem getElem_firstSlots {start rank : Nat} {groups : List (List α)} (inside : rank < groups.length)
    (within : rank < (firstSlots start (groups.map List.length)).length) :
    (firstSlots start (groups.map List.length))[rank] =
      start + (groups.take rank).flatten.length := by
  -- By induction on the groups, each of which moves the start of the rest.
  induction groups generalizing start rank with
  | nil => simp at inside
  | cons group groups ih =>
    cases rank with
    | zero => simp [firstSlots]
    | succ rank =>
      simp only [List.length_cons, Nat.add_lt_add_iff_right] at inside
      simp only [List.map_cons, firstSlots, List.getElem_cons_succ, List.take_succ_cons,
        List.flatten_cons, List.length_append]
      rw [ih inside]
      omega

/-- Every rank has a first slot. -/
theorem length_firstSlots {start : Nat} {counts : List Nat} :
    (firstSlots start counts).length = counts.length := by
  induction counts generalizing start with
  | nil => rfl
  | cons count counts ih => simp [firstSlots, ih]

/-- An entry of one of several lists is replaced in the lists put together. -/
theorem set_flatten {lists : List (List α)} {rank place : Nat} {item : α} (inside : rank < lists.length)
    (within : place < lists[rank].length) :
    lists.flatten.set ((lists.take rank).flatten.length + place) item =
      (lists.set rank (lists[rank].set place item)).flatten := by
  -- By induction on the lists, of which the ones before the changed one are passed over.
  induction lists generalizing rank with
  | nil => simp at inside
  | cons list lists ih =>
    cases rank with
    | zero =>
      simp only [List.getElem_cons_zero] at within
      simp only [List.flatten_cons, List.take_zero, List.flatten_nil, List.length_nil, Nat.zero_add,
        List.set_cons_zero, List.getElem_cons_zero]
      rw [List.set_append_left _ _ within]
    | succ rank =>
      simp only [List.length_cons, Nat.add_lt_add_iff_right] at inside
      simp only [List.getElem_cons_succ] at within
      simp only [List.flatten_cons, List.take_succ_cons, List.length_append, List.set_cons_succ,
        List.getElem_cons_succ]
      rw [List.set_append_right _ _ (by omega), ← ih inside within]
      congr 2
      omega

/-- A place in one of several lists is a place in the lists put together. -/
theorem lt_length_flatten (lists : List (List α)) (rank place : Nat) (inside : rank < lists.length)
    (within : place < lists[rank].length) :
    (lists.take rank).flatten.length + place < lists.flatten.length := by
  -- The lists fall into those before the one in question, itself, and the rest.
  have split := List.take_append_drop rank lists
  rw [List.drop_eq_getElem_cons inside] at split
  have lengths := congrArg (fun lists => lists.flatten.length) split
  simp only [List.flatten_append, List.flatten_cons, List.length_append] at lengths
  omega

section Placing

variable [Inhabited α] (owner : α → Fin size)

/-- The items that a rank has been given so far, followed by room for those that are still to come. -/
def frame (placed : Fin size → List α) (items : List α) (rank : Fin size) : List α :=
  placed rank ++ List.replicate (items.filter fun item => owner item = rank).length default

/-- Placing an item at the end of those of its rank leaves as much less room there. -/
theorem frame_place (placed : Fin size → List α) (item : α) (items : List α) :
    List.ofFn (frame owner (Function.update placed (owner item) (placed (owner item) ++ [item])) items) =
      (List.ofFn (frame owner placed (item :: items))).set (owner item)
        ((frame owner placed (item :: items) (owner item)).set (placed (owner item)).length item) := by
  -- Only the room of the item's rank changes, and there only its first free place.
  apply List.ext_getElem
  · simp
  intro index inside _
  simp only [List.length_ofFn] at inside
  rw [List.getElem_set]
  split
  · rename_i own
    subst own
    simp [frame, List.replicate_succ, List.set_append_right]
  · rename_i other
    have different : (⟨index, inside⟩ : Fin size) ≠ owner item :=
      fun same => other (by rw [← same])
    simp [frame, Function.update_of_ne different, different.symm]

/-- Placing an item moves no rank's room. -/
theorem before_frame_place (placed : Fin size → List α) (item : α) (items : List α) (rank : Nat) :
    before (frame owner (Function.update placed (owner item) (placed (owner item) ++ [item])) items)
      rank = before (frame owner placed (item :: items)) rank := by
  -- A place is filled, and no room grows or shrinks by it.
  have lengths : (List.ofFn (frame owner
      (Function.update placed (owner item) (placed (owner item) ++ [item])) items)).map List.length =
      (List.ofFn (frame owner placed (item :: items))).map List.length := by
    rw [frame_place, List.map_set, List.length_set]
    apply List.ext_getElem
    · simp
    · intro index _ _
      rw [List.getElem_set]
      split
      · rename_i own
        simp [← own]
      · rfl
  simp only [before, List.length_flatten, List.map_take, lengths]

/-- What the next free slots and the buffer are while items are placed. -/
structure Framed (placed : Fin size → List α) (items : List α) (free : Array Nat) (buffer : Array α) :
    Prop where
  /-- Every rank has a next free slot. -/
  counters : free.size = size
  /-- It lies right after the items that the rank has been given so far. -/
  starts : ∀ rank : Fin size,
    free[rank.val]? = some (before (frame owner placed items) rank + (placed rank).length)
  /-- The buffer holds the items of all ranks, and room for those to come. -/
  filled : buffer.toList = everything (frame owner placed items)

variable {owner}

/-- An item takes the first place that is left in the room of its rank. -/
theorem Framed.step {placed : Fin size → List α} {item : α} {items : List α} {free : Array Nat}
    {buffer : Array α} (framed : Framed owner placed (item :: items) free buffer) :
    ∃ (inside : (owner item).val < free.size) (within : free[(owner item).val] < buffer.size),
      Framed owner (Function.update placed (owner item) (placed (owner item) ++ [item])) items
        (free.set (owner item) (free[(owner item).val] + 1)) (buffer.set free[(owner item).val] item) := by
  obtain ⟨inside, slot⟩ := Array.getElem?_eq_some_iff.mp (framed.starts (owner item))
  -- There is a free place in the room of the rank, as this item is still to be placed there.
  have room : (placed (owner item)).length < (frame owner placed (item :: items) (owner item)).length := by
    simp [frame]
  have within := lt_length_flatten (List.ofFn (frame owner placed (item :: items)))
    (owner item) (placed (owner item)).length (by simp) (by simpa using room)
  have length : buffer.size = (List.ofFn (frame owner placed (item :: items))).flatten.length := by
    rw [← Array.length_toList, framed.filled, everything]
  refine ⟨inside, by rw [slot, length]; exact within, ?_, fun rank => ?_, ?_⟩
  · rw [Array.size_set, framed.counters]
  · rw [before_frame_place]
    by_cases same : owner item = rank
    · subst same
      simp [slot, Nat.add_assoc]
    · have different : (owner item).val ≠ rank.val := fun equal => same (Fin.ext equal)
      rw [Array.getElem?_set_ne _ different, framed.starts rank, Function.update_of_ne (Ne.symm same)]
  · rw [Array.toList_set, framed.filled, everything, everything, frame_place, slot, before,
      set_flatten (by simp) (by simpa using room)]
    simp

/-- Items that take the next free slots of their ranks end up grouped by rank. -/
theorem Framed.place_takeSlots {items : List α} {placed : Fin size → List α} {free : Array Nat}
    {buffer : Array α} (framed : Framed owner placed items free buffer) :
    ∃ slots result, takeSlots free (items.map fun item => (owner item).val) = .ok slots ∧
      place buffer (items.zip slots) = .ok result ∧
      result.toList =
        everything fun rank => placed rank ++ items.filter fun item => owner item = rank := by
  -- By induction on the items, each of which keeps the buffer framed.
  induction items generalizing placed free buffer with
  | nil =>
    refine ⟨[], buffer, rfl, rfl, ?_⟩
    rw [framed.filled]
    rfl
  | cons item items ih =>
    obtain ⟨inside, within, later⟩ := framed.step
    obtain ⟨slots, result, taken, done, grouped⟩ := ih later
    refine ⟨free[(owner item).val] :: slots, result, ?_, ?_, ?_⟩
    · simp only [List.map_cons, takeSlots, bump, dif_pos inside, ok_bind, taken]
      rfl
    · simp only [List.zip_cons_cons, place]
      rw [dif_pos within]
      exact done
    · rw [grouped]
      congr 1
      funext rank
      by_cases same : owner item = rank
      · subst same
        simp
      · simp [same, Function.update_of_ne (Ne.symm same)]

variable (owner)

/-- The rooms of all ranks together have place for all items. -/
theorem everything_frame (items : List α) :
    everything (frame owner (fun _ => []) items) = List.replicate items.length default := by
  -- Each item calls for a place in one room, and all places start out empty.
  have lengths := (everything_filter_perm owner items).length_eq
  rw [List.eq_replicate_iff]
  constructor
  · rw [← lengths]
    simp [everything, List.length_flatten, List.map_ofFn, Function.comp_def, frame]
  · intro item member
    obtain ⟨rank, member⟩ := mem_everything.mp member
    rw [frame, List.nil_append] at member
    exact List.eq_of_mem_replicate member

end Placing

/-- Numbers of items are counts exactly if none of them is too great. -/
theorem mapM_asCount_eq_ok_iff {numbers : List Nat} {counts : List Int32} :
    numbers.mapM asCount = .ok counts ↔
      (∀ number ∈ numbers, number ≤ Count.most) ∧ counts = numbers.map Int32.ofNat := by
  -- A number is a count exactly if it is not too great.
  have counted : ∀ number, number ≤ Count.most → asCount number = .ok (Int32.ofNat number) := by
    intro number small
    exact if_pos small
  constructor
  · intro mapped
    have small : ∀ number ∈ numbers, number ≤ Count.most := by
      intro number member
      obtain ⟨count, made⟩ := exists_of_mapM_eq_ok mapped number member
      unfold asCount at made
      split at made
      · assumption
      · simp at made
    rw [mapM_eq_ok fun number member => counted number (small number member)] at mapped
    exact ⟨small, (Except.ok.inj mapped).symm⟩
  · rintro ⟨small, rfl⟩
    exact mapM_eq_ok fun number member => counted number (small number member)

/-- Numbers of items fail to be counts only where one of them is too great. -/
theorem exists_of_mapM_asCount_eq_error {numbers : List Nat} {error : OperationError}
    (failing : numbers.mapM asCount = .error error) :
    ∃ number ∈ numbers, Count.most < number ∧ error = .outOfMemory number Count.most := by
  -- The first number that fails is the one that the error tells.
  obtain ⟨number, member, failed⟩ := exists_of_mapM_eq_error failing
  unfold asCount at failed
  split at failed
  · cases failed
  · rename_i great
    cases failed
    exact ⟨number, member, Nat.lt_of_not_le great, rfl⟩

/-- The items of a list that go to a rank. -/
def bound (destination : α → Except Failure Nat) (items : List α) (rank : Fin size) : List α :=
  items.filter fun item => destination item = .ok rank.val

/-- Items of which each has an owner are grouped by owner, if none is given too many. -/
theorem group_of_owner [Inhabited α] {destination : α → Except Failure Nat} {items : List α}
    (owner : α → Fin size) (goes : ∀ item ∈ items, destination item = .ok (owner item).val) :
    group size destination items = (do
      let counts ← ((List.ofFn fun rank => (items.filter fun item => owner item = rank).length).mapM
        asCount).mapError .graph
      return ⟨everything fun rank => items.filter fun item => owner item = rank, counts⟩) := by
  have named := mapM_eq_ok goes
  obtain ⟨numbers, tallied⟩ : ∃ numbers : Array Nat,
      tally size (items.map fun item => (owner item).val) = .ok numbers :=
    ⟨_, tally_eq_ok_iff.mpr ⟨by simp, List.toList_toArray⟩⟩
  -- The tally is the length of every group, from which the groups' first slots follow.
  have lengths : numbers.toList =
      (List.ofFn (frame owner (fun _ => []) items)).map List.length := by
    rw [(tally_eq_ok_iff.mp tallied).2, List.map_ofFn]
    congr 1
    funext rank
    rw [List.count_eq_countP, List.countP_map, List.countP_eq_length_filter, Function.comp_apply,
      frame, List.nil_append, List.length_replicate]
    refine congrArg List.length (List.filter_congr fun item _ => ?_)
    rw [Bool.eq_iff_iff]
    simp [Fin.ext_iff]
  have starts : ∀ rank : Fin size, (firstSlots 0 numbers.toList).toArray[rank.val]? =
      some (before (frame owner (fun _ => []) items) rank + ([] : List α).length) := by
    intro rank
    have inside : rank.val < (firstSlots 0 numbers.toList).length := by
      rw [length_firstSlots, lengths]
      simp
    rw [List.getElem?_toArray, List.getElem?_eq_getElem inside]
    simp only [lengths]
    rw [getElem_firstSlots (by simp)]
    simp [before]
  have framed : Framed owner (fun _ => []) items (firstSlots 0 numbers.toList).toArray
      (Array.replicate items.length default) :=
    ⟨by rw [List.size_toArray, length_firstSlots, lengths]; simp, starts, by rw [everything_frame]; simp⟩
  obtain ⟨slots, result, taken, done, grouped⟩ := framed.place_takeSlots
  have numbered : numbers.toList =
      List.ofFn fun rank => (items.filter fun item => owner item = rank).length := by
    rw [lengths, List.map_ofFn]
    congr 1
    funext rank
    simp [frame]
  simp only [List.nil_append] at grouped
  rw [numbered] at taken
  unfold group
  simp only [named, tallied, taken, done, Failure.ofDefect_ok, ok_bind, numbered, grouped]

/-- Items of which each has an owner are grouped exactly if not too many of them have the same one. -/
theorem group_of_owner_eq_ok_iff [Inhabited α] {destination : α → Except Failure Nat} {items : List α}
    {grouped : Grouped α} (owner : α → Fin size)
    (goes : ∀ item ∈ items, destination item = .ok (owner item).val) :
    group size destination items = .ok grouped ↔
      (∀ rank : Fin size, (bound destination items rank).length ≤ Count.most) ∧
      grouped = .ofGroups fun rank : Fin size => bound destination items rank := by
  have same : (fun rank : Fin size => items.filter fun item => owner item = rank) =
      fun rank => bound destination items rank := by
    funext rank
    apply List.filter_congr
    intro item member
    simp [goes item member, Fin.ext_iff]
  -- The counts that come with the groups are the lengths of these.
  have numbers : (List.ofFn fun rank => (items.filter fun item => owner item = rank).length) =
      (List.ofFn fun rank : Fin size => bound destination items rank).map List.length := by
    rw [List.map_ofFn, ← same]
    rfl
  have small : (∀ number ∈ (List.ofFn fun rank : Fin size =>
        bound destination items rank).map List.length, number ≤ Count.most) ↔
      ∀ rank : Fin size, (bound destination items rank).length ≤ Count.most := by
    rw [List.forall_mem_map, List.forall_mem_ofFn_iff]
  rw [group_of_owner owner goes, same, numbers, bind_eq_ok_iff]
  simp only [mapError_eq_ok_iff, mapM_asCount_eq_ok_iff, small, List.map_map,
    Grouped.ofGroups, Communicator.announced_eq_map, pure_eq_ok, Except.ok.injEq]
  constructor
  · rintro ⟨counts, ⟨small, rfl⟩, rfl⟩
    exact ⟨small, rfl⟩
  · rintro ⟨small, rfl⟩
    exact ⟨_, ⟨small, rfl⟩, rfl⟩

/-- Items that are grouped all go to some rank. -/
theorem exists_rank_of_group_eq_ok [Inhabited α] {destination : α → Except Failure Nat} {items : List α}
    {grouped : Grouped α} (made : group size destination items = .ok grouped) :
    ∀ item ∈ items, ∃ rank : Fin size, destination item = .ok rank.val := by
  unfold group at made
  obtain ⟨destinations, named, made⟩ := bind_eq_ok_iff.mp made
  obtain ⟨numbers, tallied, -⟩ := bind_eq_ok_iff.mp made
  -- The tally has refused whatever is no rank.
  have inside := (tally_eq_ok_iff.mp (Failure.ofDefect_eq_ok_iff.mp tallied)).1
  choose! rank known using exists_of_mapM_eq_ok named
  rw [mapM_eq_ok known, Except.ok.injEq] at named
  subst named
  intro item member
  exact ⟨⟨rank item, inside _ (List.mem_map_of_mem member)⟩, known item member⟩

/-- Items are grouped exactly if each of them goes to some rank, and not too many to the same one. -/
theorem group_eq_ok_iff [Inhabited α] {destination : α → Except Failure Nat} {items : List α}
    {grouped : Grouped α} :
    group size destination items = .ok grouped ↔
      (∀ item ∈ items, ∃ rank : Fin size, destination item = .ok rank.val) ∧
      (∀ rank : Fin size, (bound destination items rank).length ≤ Count.most) ∧
      grouped = .ofGroups fun rank : Fin size => bound destination items rank := by
  -- Without a rank for every item neither side holds.
  by_cases goes : ∀ item ∈ items, ∃ rank : Fin size, destination item = .ok rank.val
  · rw [and_iff_right goes]
    cases size with
    | zero =>
      have none_there : items = [] := by
        rw [List.eq_nil_iff_forall_not_mem]
        intro item member
        exact (goes item member).choose.elim0
      subst none_there
      have made : group 0 destination [] = .ok ⟨[], []⟩ := rfl
      rw [made]
      simp [Grouped.ofGroups, Communicator.announced, eq_comm]
    | succ size =>
      choose! owner known using goes
      exact group_of_owner_eq_ok_iff owner known
  · simp only [goes, false_and, iff_false]
    exact fun made => goes (exists_rank_of_group_eq_ok made)

/-- Items that all have a rank fail to be grouped only where too many of them have the same one. -/
theorem exists_of_group_eq_error [Inhabited α] {destination : α → Except Failure Nat} {items : List α}
    {error : Failure} (goes : ∀ item ∈ items, ∃ rank : Fin size, destination item = .ok rank.val)
    (failing : group size destination items = .error error) :
    ∃ number, Count.most < number ∧ number ≤ items.length ∧
      error = .graph (.outOfMemory number Count.most) := by
  cases items with
  | nil =>
    have made : group size destination [] =
        .ok (.ofGroups fun rank : Fin size => bound destination [] rank) := by
      simp [group_eq_ok_iff, bound]
    rw [made] at failing
    cases failing
  | cons first items =>
    have : Nonempty (Fin size) := ⟨(goes first List.mem_cons_self).choose⟩
    -- With an item at hand there is a rank, so that every item has an owner, and only counting can fail.
    choose! owner known using goes
    rw [group_of_owner owner known] at failing
    cases counted : (List.ofFn fun rank =>
        ((first :: items).filter fun item => owner item = rank).length).mapM asCount with
    | ok counts => simp [counted] at failing
    | error reason =>
      simp only [counted, mapError_error, error_bind, Except.error.injEq] at failing
      obtain ⟨number, member, great, rfl⟩ := exists_of_mapM_asCount_eq_error counted
      obtain ⟨rank, rfl⟩ := List.mem_ofFn.mp member
      exact ⟨_, great, List.length_filter_le _ _, failing.symm⟩

end Grouping

end DistGraph
