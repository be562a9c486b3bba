import DistGraph.Runs

/-! The runs of a list that is sorted by a key. -/

namespace DistGraph

variable {α : Type} {related : α → α → Bool} {key : α → Nat}

/-- Cutting starts with the first entry. -/
theorem runs_head {entry : α} {entries : List α} :
    ∃ rest later, runs related (entry :: entries) = (entry, rest) :: later := by
  -- The first entry starts a run or joins the one behind it, of which it becomes the head.
  simp only [runs]
  split
  · exact ⟨_, _, rfl⟩
  · split <;> exact ⟨_, _, rfl⟩

/-- Whether runs hold all entries of their keys, and follow one another by key. -/
structure SortedRuns (key : α → Nat) (entries : List α) (cut : List (α × List α)) : Prop where
  /-- A run holds all entries with its key. -/
  whole : ∀ run ∈ cut, run.1 :: run.2 = entries.filter fun entry => key entry = key run.1
  /-- Keys rise from run to run. -/
  rising : cut.Pairwise fun left right => key left.1 < key right.1

variable {entry next : α} {entries rest : List α} {later : List (α × List α)}

/-- An entry with the key of the first run joins it. -/
theorem SortedRuns.join (sorted : SortedRuns key entries ((next, rest) :: later))
    (same : key entry = key next) :
    SortedRuns key (entry :: entries) ((entry, next :: rest) :: later) := by
  obtain ⟨above, risingLater⟩ := List.pairwise_cons.mp sorted.rising
  have apart : ∀ run ∈ later, key entry < key run.1 := fun run member => same ▸ above run member
  refine ⟨?_, List.pairwise_cons.mpr ⟨apart, risingLater⟩⟩
  intro run member
  rcases List.mem_cons.mp member with rfl | member
  · have first : next :: rest = entries.filter fun other => key other = key next :=
      sorted.whole (next, rest) List.mem_cons_self
    rw [List.filter_cons_of_pos (by simp), same, ← first]
  · -- The entry belongs to none of the later runs, whose keys are greater.
    have other : ¬ key entry = key run.1 := Nat.ne_of_lt (apart run member)
    rw [List.filter_cons_of_neg (by simpa using other)]
    exact sorted.whole run (List.mem_cons_of_mem _ member)

/-- An entry with a lesser key than all others opens a run. -/
theorem SortedRuns.open (sorted : SortedRuns key entries ((next, rest) :: later))
    (least : ∀ other ∈ entries, key entry < key other) (less : key entry < key next) :
    SortedRuns key (entry :: entries) ((entry, []) :: (next, rest) :: later) := by
  obtain ⟨above, _⟩ := List.pairwise_cons.mp sorted.rising
  -- The key of the new run is below those of all others, which it is not mixed up with.
  have apart : ∀ run ∈ (next, rest) :: later, key entry < key run.1 := by
    intro run member
    rcases List.mem_cons.mp member with rfl | deeper
    · exact less
    · exact Nat.lt_trans less (above run deeper)
  refine ⟨?_, List.pairwise_cons.mpr ⟨apart, sorted.rising⟩⟩
  intro run member
  rcases List.mem_cons.mp member with rfl | member
  · have none_left : entries.filter (fun other => key other = key entry) = [] := by
      rw [List.filter_eq_nil_iff]
      intro other held
      simpa using Nat.ne_of_gt (least other held)
    rw [List.filter_cons_of_pos (by simp), none_left]
  · have other : ¬ key entry = key run.1 := Nat.ne_of_lt (apart run member)
    rw [List.filter_cons_of_neg (by simpa using other)]
    exact sorted.whole run member

/-- A list that is sorted by a key is cut into one run per key. -/
theorem runs_sorted (decides : ∀ left right, related left right = true ↔ key left = key right)
    {entries : List α} (sorted : entries.Pairwise fun left right => key left ≤ key right) :
    SortedRuns key entries (runs related entries) := by
  -- By induction on the entries, of which the first joins the run behind it or opens its own.
  induction entries with
  | nil => exact ⟨by simp [runs], by simp [runs]⟩
  | cons entry entries ih =>
    obtain ⟨below, sortedRest⟩ := List.pairwise_cons.mp sorted
    have known := ih sortedRest
    cases entries with
    | nil => exact ⟨by simp [runs], by simp [runs]⟩
    | cons next others =>
      obtain ⟨rest, later, cutOff⟩ :
          ∃ rest later, runs related (next :: others) = (next, rest) :: later := runs_head
      rw [cutOff] at known
      rw [runs, cutOff]
      dsimp only
      split
      · rename_i joins
        exact known.join ((decides entry next).mp joins)
      · rename_i parts
        have different : key entry ≠ key next := fun same => parts ((decides entry next).mpr same)
        have less : key entry < key next := Nat.lt_of_le_of_ne (below next List.mem_cons_self) different
        refine known.open (fun other member => ?_) less
        -- All later entries have keys at or above the next one's.
        rcases List.mem_cons.mp member with rfl | deeper
        · exact less
        · exact Nat.lt_of_lt_of_le less ((List.pairwise_cons.mp sortedRest).1 other deeper)

/-- Every entry lies in a run. -/
theorem exists_run_of_mem (related : α → α → Bool) {entries : List α} {entry : α} (member : entry ∈ entries) :
    ∃ run ∈ runs related entries, entry ∈ run.1 :: run.2 := by
  rw [← flatMap_runs related entries] at member
  simpa using member

/-- The first entries of runs are entries. -/
theorem fst_mem_of_mem_runs {entries : List α} {run : α × List α}
    (member : run ∈ runs related entries) : run.1 ∈ entries := by
  rw [← flatMap_runs related entries]
  exact List.mem_flatMap.mpr ⟨run, member, by simp⟩

/-- There are no more runs than entries. -/
theorem length_runs_le (related : α → α → Bool) (entries : List α) :
    (runs related entries).length ≤ entries.length := by
  -- Every run takes up an entry at least, and all of them together are the list.
  have each : ∀ parts : List (α × List α),
      parts.length ≤ (parts.flatMap fun run => run.1 :: run.2).length := by
    intro parts
    induction parts with
    | nil => simp
    | cons run parts ih =>
      rw [List.flatMap_cons, List.length_append, List.length_cons, List.length_cons]
      omega
  have whole := each (runs related entries)
  rwa [flatMap_runs] at whole

/-- Entries of which none is related to the next are runs of their own. -/
theorem runs_of_unrelated {entries : List α}
    (unrelated : entries.Pairwise fun left right => related left right = false) :
    runs related entries = entries.map fun entry => (entry, []) := by
  induction entries with
  | nil => rfl
  | cons entry entries ih =>
    obtain ⟨apart, unrelatedRest⟩ := List.pairwise_cons.mp unrelated
    rw [runs, ih unrelatedRest]
    -- The first entry does not join the run of the second one.
    cases entries with
    | nil => rfl
    | cons next later => simp [apart next List.mem_cons_self]

/-- Runs of changed entries are the changed runs, if changed entries are related like those before. -/
theorem runs_map {other : α → α → Bool} (change : α → α)
    (keeps : ∀ left right, other (change left) (change right) = related left right)
    (entries : List α) :
    runs other (entries.map change) =
      (runs related entries).map fun run => (change run.1, run.2.map change) := by
  induction entries with
  | nil => rfl
  | cons entry entries ih =>
    rw [List.map_cons, runs, runs, ih]
    -- The first entry opens a run or joins one on both sides alike.
    cases runs related entries with
    | nil => rfl
    | cons run later =>
      simp only [List.map_cons, keeps]
      split <;> simp

end DistGraph
