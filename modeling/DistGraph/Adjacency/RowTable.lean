/-! Entries stored by row, each row in the order of its slots. -/

namespace DistGraph

variable {α : Type}

/-- An entry together with its place in a table of rows. -/
structure Cell (α : Type) where
  /-- The row of the entry. -/
  row : Nat
  /-- The place of the entry in its row. -/
  slot : Nat
  /-- The entry. -/
  value : α

/-- Rows of entries. -/
structure RowTable (α : Type) where
  /-- The entries of every row. -/
  rows : Array (List α)

namespace RowTable

/-- Whether a cell belongs right after another one or later. -/
def precedes (left right : Cell α) : Bool :=
  -- No two cells may share a place.
  left.row < right.row || (left.row == right.row && left.slot < right.slot)

/-- The first cell that does not come after the one before it. -/
def firstUnsorted? : List (Cell α) → Option (Cell α)
  -- A list of one cell is in order.
  | left :: right :: rest => if precedes left right then firstUnsorted? (right :: rest) else some right
  | [_] | [] => none

/-- The number of rows that cells call for. -/
def height (cells : List (Cell α)) : Nat :=
  -- Rows and slots are drawn from the same numbers, so a far slot calls for rows as well.
  cells.foldl (fun most cell => max most (max cell.row cell.slot + 1)) 0

/-- The next `count` rows of sorted cells. -/
def splitRows (row : Nat) : (count : Nat) → List (Cell α) → List (List α)
  -- The cells of a row stand in front of those of later rows.
  | 0, _ => []
  | count + 1, cells =>
    (cells.takeWhile fun cell => cell.row == row).map Cell.value ::
      splitRows (row + 1) count (cells.dropWhile fun cell => cell.row == row)

/-- The table of sorted cells, or the first cell that is out of order. -/
def ofCells (cells : List (Cell α)) : Except (Cell α) (RowTable α) :=
  -- Rows without a cell are empty.
  match firstUnsorted? cells with
  | some cell => .error cell
  | none => .ok ⟨(splitRows 0 (height cells) cells).toArray⟩

/-- The number of rows. -/
def rowCount (table : RowTable α) : Nat := table.rows.size

/-- The number of entries in all rows. -/
def entryCount (table : RowTable α) : Nat :=
  -- Every entry lies in one row.
  table.rows.toList.flatten.length

/-- The entries of a row. -/
def row (table : RowTable α) (index : Nat) : List α :=
  -- A row that does not exist has no entries.
  table.rows[index]?.getD []

/-- The table with empty rows added up to a number of rows. -/
def padTo (table : RowTable α) (count : Nat) : RowTable α :=
  -- A table that has as many rows already stays as it is.
  ⟨table.rows ++ Array.replicate (count - table.rows.size) []⟩

end RowTable

end DistGraph
