/-! Lists cut into runs of neighbours that belong together. -/

namespace DistGraph

variable {α : Type}

/-- The longest runs in which every entry is related to the next, as first entries with the rest. -/
def runs (related : α → α → Bool) : List α → List (α × List α)
  -- An entry opens a run of its own unless the next run takes it in at its front.
  | [] => []
  | entry :: entries =>
    match runs related entries with
    | [] => [(entry, [])]
    | (next, rest) :: later =>
      if related entry next then (entry, next :: rest) :: later
      else (entry, []) :: (next, rest) :: later

/-- Cutting into runs loses and moves nothing. -/
theorem flatMap_runs (related : α → α → Bool) (entries : List α) :
    (runs related entries).flatMap (fun run => run.1 :: run.2) = entries := by
  -- Whether the first entry joins a run or opens one, it comes out in front.
  induction entries with
  | nil => rfl
  | cons entry entries ih =>
    simp only [runs]
    split
    · rename_i none_left
      rw [none_left] at ih
      simp at ih
      simp [← ih]
    · rename_i next rest later split_off
      rw [split_off] at ih
      split <;> simp_all

end DistGraph
