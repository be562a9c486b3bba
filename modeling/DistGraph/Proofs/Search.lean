import DistGraph.Search

/-! What halving finds among entries that are in order. -/

namespace DistGraph.Search

variable {order : Nat → Ordering}

/-- Halving leaves its base only for an entry that is not beyond what is sought, and stops at the
last one of these. -/
theorem narrow_last {bound : Nat}
    (sorted : ∀ i j, i ≤ j → j < bound → order i = .gt → order j = .gt) (base size : Nat)
    (occupied : 0 < size) (within : base + size ≤ bound)
    (beyond : ∀ i, base + size ≤ i → i < bound → order i = .gt) :
    (narrow order base size = base ∨ order (narrow order base size) ≠ .gt) ∧
      ∀ i, narrow order base size < i → i < bound → order i = .gt := by
  -- Whichever half is kept, everything after it lies beyond.
  induction size using Nat.strongRecOn generalizing base with
  | ind size ih =>
    rw [narrow]
    split
    · have single : size = 1 := by omega
      subst single
      exact ⟨.inl rfl, fun i after inside => beyond i (by omega) inside⟩
    · dsimp only
      split
      · rename_i large past
        apply ih (size - size / 2) (by omega) base (by omega) (by omega)
        intro i after inside
        exact sorted (base + size / 2) i (by omega) inside past
      · rename_i large kept
        have upper := ih (size - size / 2) (by omega) (base + size / 2) (by omega) (by omega)
          fun i after inside => beyond i (by omega) inside
        refine ⟨.inr ?_, upper.2⟩
        rcases upper.1 with stays | moves
        · rw [stays]
          exact kept
        · exact moves

/-- An equal entry is found exactly when there is one. -/
theorem find?_isSome_iff {size : Nat}
    (sorted : ∀ i j, i ≤ j → j < size → order i = .gt → order j = .gt)
    (rising : ∀ i j, i ≤ j → j < size → order j = .lt → order i = .lt) :
    (find? size order).isSome ↔ ∃ i, i < size ∧ order i = .eq := by
  unfold find?
  -- An empty range has no entries to find.
  split
  · rename_i empty
    simp [empty]
  · rename_i occupied
    have last := narrow_last sorted 0 size (by omega) (by omega) fun i after inside => by omega
    have inside := narrow_lt order 0 size (by omega)
    dsimp only
    split
    · rename_i equal
      simp only [Option.isSome_some, true_iff]
      exact ⟨_, by omega, equal⟩
    · rename_i other
      simp only [Option.isSome_none, Bool.false_eq_true, false_iff, not_exists, not_and]
      intro i small equal
      -- The last entry that is not beyond comes at or after an equal entry, and is not lesser.
      have start : order 0 ≠ .gt := by
        intro past
        simp [sorted 0 i (by omega) small past] at equal
      have notAfter : ¬ narrow order 0 size < i := by
        intro after
        simp [last.2 i after small] at equal
      cases found : order (narrow order 0 size) with
      | lt =>
        have lesser := rising i _ (by omega) (by omega) found
        simp [equal] at lesser
      | eq => exact other found
      | gt =>
        rcases last.1 with stays | moves
        · exact start (stays ▸ found)
        · exact moves found

/-- Among entries whose keys ascend, one with a given key is found if there is one. -/
theorem find?_key_iff {α : Type} {entries : List α} {key : α → Nat} (sought : Nat)
    (ascending : entries.Pairwise fun left right => key left ≤ key right)
    (reads : ∀ i (inside : i < entries.length), order i = compare (key entries[i]) sought) :
    (find? entries.length order).isSome ↔ ∃ entry ∈ entries, key entry = sought := by
  have rising : ∀ i j (before : i ≤ j) (inside : j < entries.length),
      key entries[i] ≤ key entries[j] := by
    intro i j before inside
    rcases Nat.lt_or_eq_of_le before with less | rfl
    · exact List.pairwise_iff_getElem.mp ascending i j (by omega) inside less
    · exact Nat.le_refl _
  -- With ascending keys, entries that compare greater or less stay so further on or further back.
  rw [find?_isSome_iff]
  · constructor
    · intro ⟨i, inside, equal⟩
      rw [reads i inside, Nat.compare_eq_eq] at equal
      exact ⟨entries[i], List.getElem_mem inside, equal⟩
    · rintro ⟨entry, member, same⟩
      obtain ⟨i, inside, rfl⟩ := List.getElem_of_mem member
      exact ⟨i, inside, by rw [reads i inside, Nat.compare_eq_eq, same]⟩
  · intro i j before inside past
    rw [reads i (by omega), Nat.compare_eq_gt] at past
    rw [reads j inside, Nat.compare_eq_gt]
    exact Nat.lt_of_lt_of_le past (rising i j before inside)
  · intro i j before inside lesser
    rw [reads j inside, Nat.compare_eq_lt] at lesser
    rw [reads i (by omega), Nat.compare_eq_lt]
    exact Nat.lt_of_le_of_lt (rising i j before inside) lesser

/-- The partition point lies right after the entries that pass the test. -/
theorem lt_partitionPoint_iff {size : Nat} {test : Nat → Bool}
    (falling : ∀ i j, i ≤ j → j < size → test j = true → test i = true) {i : Nat}
    (inside : i < size) : i < partitionPoint size test ↔ test i = true := by
  unfold partitionPoint
  rw [if_neg (by omega)]
  -- An entry that fails the test counts as beyond the point.
  have sorted : ∀ i j, i ≤ j → j < size → (if test i then Ordering.lt else .gt) = .gt →
      (if test j then Ordering.lt else .gt) = .gt := by
    intro i j before within fails
    cases passes : test j with
    | false => simp
    | true => simp [falling i j before within passes] at fails
  have last := narrow_last sorted 0 size (by omega) (by omega) fun i after inside => by omega
  have bound := narrow_lt (fun i => if test i then .lt else .gt) 0 size (by omega)
  generalize narrow (fun i => if test i then .lt else .gt) 0 size = point at last bound
  dsimp only
  split
  · rename_i passes
    constructor
    · intro before
      exact falling i point (by omega) (by omega) passes
    · intro passesHere
      rcases Nat.lt_or_ge point i with after | before
      · simpa [passesHere] using last.2 i after inside
      · omega
  · rename_i fails
    -- Halving has not left the first entry, which fails, and so do all others.
    have first : point = 0 := by simpa [fails] using last.1
    subst first
    constructor
    · intro before
      omega
    · intro passes
      exact absurd (falling 0 i (by omega) inside passes) fails

end DistGraph.Search
