import Mathlib.Data.List.Basic

/-! Lists that are sorted by a key fall apart by keys. -/

namespace DistGraph

variable {α : Type} {key : α → Nat}

/-- The entries with the least key come first. -/
theorem takeWhile_least {entries : List α} {least : Nat}
    (sorted : entries.Pairwise fun left right => key left ≤ key right)
    (above : ∀ entry ∈ entries, least ≤ key entry) :
    entries.takeWhile (fun entry => key entry = least) =
        entries.filter (fun entry => key entry = least) ∧
      entries.dropWhile (fun entry => key entry = least) =
        entries.filter fun entry => key entry ≠ least := by
  induction entries with
  | nil => simp
  | cons entry entries ih =>
    obtain ⟨below, sortedRest⟩ := List.pairwise_cons.mp sorted
    by_cases first : key entry = least
    · have rest := ih sortedRest fun later member => above later (by simp [member])
      simp [first, rest.1, rest.2]
    · -- Once an entry has a greater key, all later ones do.
      have greater : ∀ later ∈ entries, key later ≠ least := by
        intro later member same
        have := below later member
        have := above entry (by simp)
        omega
      have none_left : entries.filter (fun entry => key entry = least) = [] := by
        simpa using greater
      have all_left : entries.filter (fun entry => key entry ≠ least) = entries := by
        simpa using greater
      constructor
      · rw [List.takeWhile_cons_of_neg (by simpa using first),
          List.filter_cons_of_neg (by simpa using first), none_left]
      · rw [List.dropWhile_cons_of_neg (by simpa using first),
          List.filter_cons_of_pos (by simpa using first), all_left]

/-- Entries are put back in order by gathering them key by key. -/
theorem flatMap_filter_key {entries : List α} {keys : List Nat}
    (ascending : keys.Pairwise (· < ·))
    (sorted : entries.Pairwise fun left right => key left ≤ key right)
    (listed : ∀ entry ∈ entries, key entry ∈ keys) :
    (keys.flatMap fun k => entries.filter fun entry => key entry = k) = entries := by
  induction keys generalizing entries with
  | nil =>
    have none_there : entries = [] := List.eq_nil_iff_forall_not_mem.mpr (by simpa using listed)
    simp [none_there]
  | cons least keys ih =>
    obtain ⟨below, ascendingRest⟩ := List.pairwise_cons.mp ascending
    have above : ∀ entry ∈ entries, least ≤ key entry := by
      intro entry member
      rcases List.mem_cons.mp (listed entry member) with same | later
      · omega
      · exact Nat.le_of_lt (below _ later)
    -- Entries with the least key come first, and what follows has the keys that are left.
    obtain ⟨taken, dropped⟩ := takeWhile_least sorted above
    have listedRest : ∀ entry ∈ entries.filter (fun entry => key entry ≠ least),
        key entry ∈ keys := by
      intro entry member
      obtain ⟨held, other⟩ := List.mem_filter.mp member
      rcases List.mem_cons.mp (listed entry held) with same | later
      · simp [same] at other
      · exact later
    have rest := ih ascendingRest (sorted.filter _) listedRest
    -- The keys that are left are greater, so that leaving the least one out takes nothing from them.
    have others : (keys.flatMap fun k => entries.filter fun entry => key entry = k) =
        keys.flatMap fun k => (entries.filter fun entry => key entry ≠ least).filter
          fun entry => key entry = k := by
      refine List.flatMap_congr fun k member => ?_
      rw [List.filter_filter]
      apply List.filter_congr
      intro entry _
      by_cases same : key entry = k
      · have := below k member
        simp [same]
        omega
      · simp [same]
    rw [List.flatMap_cons, others, rest, ← taken, ← dropped, List.takeWhile_append_dropWhile]

end DistGraph
