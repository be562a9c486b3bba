import DistGraph.Adjacency.RowTable
import DistGraph.Proofs.Sorted

/-! The rows of a table that is made of sorted cells. -/

namespace DistGraph.RowTable

variable {α : Type} {cells : List (Cell α)}

/-- Cells are ordered by their rows, and within a row by their slots. -/
theorem precedes_iff {left right : Cell α} : precedes left right = true ↔
    left.row < right.row ∨ left.row = right.row ∧ left.slot < right.slot := by
  simp [precedes]

/-- Sorted cells have none that is out of order. -/
theorem firstUnsorted?_eq_none
    (sorted : cells.Pairwise fun left right => precedes left right = true) :
    firstUnsorted? cells = none := by
  -- By induction on the search, which compares neighbours.
  fun_induction firstUnsorted? cells with
  | case1 left right rest before ih => exact ih (List.pairwise_cons.mp sorted).2
  | case2 left right rest after =>
    exact absurd ((List.pairwise_cons.mp sorted).1 right List.mem_cons_self) after
  | case3 => rfl
  | case4 => rfl

/-- The order of cells is transitive. -/
theorem precedes_trans {first second third : Cell α} (before : precedes first second = true)
    (after : precedes second third = true) : precedes first third = true := by
  rw [precedes_iff] at before after ⊢
  omega

/-- Cells of which none is out of order are sorted. -/
theorem sorted_of_firstUnsorted?_eq_none (accepted : firstUnsorted? cells = none) :
    cells.Pairwise fun left right => precedes left right = true := by
  fun_induction firstUnsorted? cells with
  | case1 left right rest before ih =>
    have sorted := ih accepted
    -- The first cell precedes the second one, and with it all others.
    have first : ∀ cell ∈ right :: rest, precedes left cell = true :=
      List.forall_mem_cons.mpr ⟨before, fun cell member =>
        precedes_trans before ((List.pairwise_cons.mp sorted).1 cell member)⟩
    exact List.pairwise_cons.mpr ⟨first, sorted⟩
  | case2 => cases accepted
  | case3 => exact List.pairwise_singleton _ _
  | case4 => exact .nil

/-- A table is high enough for the row of each of its cells. -/
theorem row_lt_height {cell : Cell α} (member : cell ∈ cells) : cell.row < height cells := by
  -- The height only grows from cell to cell, and each raises it above its own row.
  have grows : ∀ (cells : List (Cell α)) (start : Nat),
      start ≤ cells.foldl (fun most cell => max most (max cell.row cell.slot + 1)) start ∧
        ∀ cell ∈ cells, cell.row <
          cells.foldl (fun most cell => max most (max cell.row cell.slot + 1)) start := by
    intro cells
    induction cells with
    | nil => simp
    | cons first cells ih =>
      intro start
      obtain ⟨above, each⟩ := ih (max start (max first.row first.slot + 1))
      rw [List.foldl_cons]
      refine ⟨by omega, ?_⟩
      intro cell member
      rcases List.mem_cons.mp member with rfl | later
      · omega
      · exact each cell later
  exact (grows cells 0).2 cell member

/-- Splitting gives as many rows as it is asked for. -/
theorem length_splitRows (first count : Nat) (cells : List (Cell α)) :
    (splitRows first count cells).length = count := by
  induction count generalizing first cells with
  | zero => rfl
  | succ count ih => simp [splitRows, ih]

/-- Rows are split off sorted cells one by one. -/
theorem getElem?_splitRows {first count index : Nat}
    (sorted : cells.Pairwise fun left right => left.row ≤ right.row)
    (above : ∀ cell ∈ cells, first ≤ cell.row) (inside : index < count) :
    (splitRows first count cells)[index]? =
      some ((cells.filter fun cell => cell.row = first + index).map Cell.value) := by
  induction count generalizing first index cells with
  | zero => omega
  | succ count ih =>
    obtain ⟨taken, dropped⟩ := takeWhile_least sorted above
    simp only [splitRows, beq_eq_decide]
    rw [taken, dropped]
    -- Cells of the first row are split off, and later rows are those of the cells that are left.
    cases index with
    | zero => simp
    | succ index =>
      have aboveLater : ∀ cell ∈ cells.filter (fun cell => cell.row ≠ first), first + 1 ≤ cell.row := by
        intro cell member
        obtain ⟨held, other⟩ := List.mem_filter.mp member
        have := above cell held
        simp only [ne_eq, decide_not, Bool.not_eq_true', decide_eq_false_iff_not] at other
        omega
      rw [List.getElem?_cons_succ, ih (sorted.filter _) aboveLater (by omega), List.filter_filter]
      congr 2
      apply List.filter_congr
      intro cell _
      rw [Bool.eq_iff_iff]
      simp only [ne_eq, decide_not, Bool.and_eq_true, decide_eq_true_eq, Bool.not_eq_true',
        decide_eq_false_iff_not]
      omega

/-- All rows of sorted cells together hold their entries. -/
theorem flatten_splitRows {first count : Nat}
    (sorted : cells.Pairwise fun left right => left.row ≤ right.row)
    (above : ∀ cell ∈ cells, first ≤ cell.row) (below : ∀ cell ∈ cells, cell.row < first + count) :
    (splitRows first count cells).flatten = cells.map Cell.value := by
  induction count generalizing first cells with
  | zero =>
    -- Between a row and itself there is no room for a cell.
    have none_there : cells = [] := List.eq_nil_iff_forall_not_mem.mpr fun cell member => by
      have := above cell member
      have := below cell member
      omega
    rw [none_there]
    rfl
  | succ count ih =>
    obtain ⟨-, dropped⟩ := takeWhile_least sorted above
    have later : ∀ cell ∈ cells.dropWhile fun cell => cell.row = first,
        first + 1 ≤ cell.row ∧ cell.row < first + 1 + count := by
      intro cell member
      rw [dropped] at member
      obtain ⟨held, other⟩ := List.mem_filter.mp member
      have := above cell held
      have := below cell held
      have := of_decide_eq_true other
      omega
    simp only [splitRows, beq_eq_decide]
    rw [List.flatten_cons, ih (sorted.sublist (List.dropWhile_sublist _)) (fun cell member =>
      (later cell member).1) fun cell member => (later cell member).2, ← List.map_append,
      List.takeWhile_append_dropWhile]

/-- The rows of sorted cells do not descend. -/
theorem rows_ascend (sorted : cells.Pairwise fun left right => precedes left right = true) :
    cells.Pairwise fun left right => left.row ≤ right.row := by
  -- The row is the leading part of the order of cells.
  refine sorted.imp ?_
  intro left right before
  rcases precedes_iff.mp before with less | ⟨same, -⟩
  · exact Nat.le_of_lt less
  · exact Nat.le_of_eq same

/-- The table of sorted cells holds every entry in its row, in the order of the cells, and no other. -/
theorem exists_ofCells (sorted : cells.Pairwise fun left right => precedes left right = true) :
    ∃ table, ofCells cells = .ok table ∧ table.entryCount = cells.length ∧
      ∀ index, table.row index = (cells.filter fun cell => cell.row = index).map Cell.value := by
  have rising := rows_ascend sorted
  refine ⟨⟨(splitRows 0 (height cells) cells).toArray⟩, ?_, ?_, fun index => ?_⟩
  · unfold ofCells
    rw [firstUnsorted?_eq_none sorted]
  · unfold entryCount
    rw [List.toList_toArray, flatten_splitRows rising (fun _ _ => Nat.zero_le _)
      fun cell member => by simpa using row_lt_height member, List.length_map]
  · unfold row
    rw [List.getElem?_toArray]
    rcases Nat.lt_or_ge index (height cells) with inside | outside
    · rw [getElem?_splitRows rising (fun _ _ => Nat.zero_le _) inside]
      simp
    · -- No cell has a row that far out.
      have none_there : cells.filter (fun cell => cell.row = index) = [] := by
        rw [List.filter_eq_nil_iff]
        intro cell member
        have := row_lt_height member
        simp only [decide_eq_true_eq]
        omega
      rw [none_there, List.getElem?_eq_none (by rw [length_splitRows]; exact outside)]
      rfl

/-- Only sorted cells make a table, which has the rows that they call for and their entries in them. -/
theorem of_ofCells {table : RowTable α} (made : ofCells cells = .ok table) :
    (cells.Pairwise fun left right => precedes left right = true) ∧ table.rowCount = height cells ∧
      table.entryCount = cells.length ∧
      ∀ index, table.row index = (cells.filter fun cell => cell.row = index).map Cell.value := by
  -- Making a table begins with the search for a cell out of order.
  have accepted : firstUnsorted? cells = none ∧ table.rowCount = height cells := by
    unfold ofCells at made
    split at made
    · cases made
    · rename_i accepted
      rw [← Except.ok.inj made]
      exact ⟨accepted, length_splitRows 0 (height cells) cells⟩
  have sorted := sorted_of_firstUnsorted?_eq_none accepted.1
  obtain ⟨other, same, entries, rows⟩ := exists_ofCells sorted
  rw [made, Except.ok.injEq] at same
  subst same
  exact ⟨sorted, accepted.2, entries, rows⟩

/-- Empty rows have no entries. -/
@[simp] theorem entryCount_padTo (table : RowTable α) (count : Nat) :
    (table.padTo count).entryCount = table.entryCount := by
  simp [padTo, entryCount]

/-- Filling a table up with empty rows changes no row. -/
theorem row_padTo (table : RowTable α) (count index : Nat) :
    (table.padTo count).row index = table.row index := by
  unfold padTo row
  -- A row beyond the old ones is empty, whether it is there or not.
  rcases Nat.lt_or_ge index table.rows.size with inside | outside
  · rw [Array.getElem?_append_left inside]
  · rw [Array.getElem?_append_right outside, Array.getElem?_eq_none outside]
    cases found : (Array.replicate (count - table.rows.size) ([] : List α))[index - table.rows.size]? with
    | none => rfl
    | some row =>
      obtain ⟨inside, rfl⟩ := Array.getElem?_eq_some_iff.mp found
      simp

end DistGraph.RowTable
