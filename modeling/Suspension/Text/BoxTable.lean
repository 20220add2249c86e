import Suspension.Text.Width

/-!
# Boxed tables

A table of texts in a frame of box-drawing characters. Every column is as wide as its widest line,
with a blank on both sides; a cell with several lines makes its row as high. The heading stands
apart from the rows by a double line, and the rows from each other by a dashed one.
-/

namespace Suspension.Text.BoxTable

/-- The characters of a horizontal line: at its ends, along it, and where columns meet. -/
structure Rule where
  left : String
  along : String
  between : String
  right : String

/-- The line above the heading. -/
def top : Rule := ⟨"┌", "─", "┬", "┐"⟩

/-- The line below the heading. -/
def belowHeading : Rule := ⟨"╞", "═", "╪", "╡"⟩

/-- The line between two rows. -/
def betweenRows : Rule := ⟨"├", "╌", "┼", "┤"⟩

/-- The line below the last row. -/
def bottom : Rule := ⟨"└", "─", "┴", "┘"⟩

/-- A text some number of times over. -/
def times (n : Nat) (s : String) : String :=
  String.join (List.replicate n s)

/-- The lines of a cell. -/
def cellLines (cell : String) : List String :=
  cell.splitOn "\n"

/-- The width of a cell. -/
def cellWidth (cell : String) : Nat :=
  ((cellLines cell).map width).foldl max 0

/-- The width of each column. Every row has as many cells as the heading. -/
def columnWidths (rows : List (List String)) (heading : List String) : List Nat :=
  rows.foldl (fun widths row ↦ List.zipWith max widths (row.map cellWidth)) (heading.map cellWidth)

/-- A horizontal line. -/
def Rule.draw (r : Rule) (widths : List Nat) : String :=
  r.left ++ r.between.intercalate (widths.map fun w ↦ times (w + 2) r.along) ++ r.right

/-- A line of a cell, filled up with blanks. -/
def padded (w : Nat) (line : String) : String :=
  " " ++ line ++ times (w - width line) " " ++ " "

/-- The lines of a row. -/
def rowLines (widths : List Nat) (row : List String) : List String :=
  let cells := row.map cellLines
  let height := (cells.map List.length).foldl max 1
  (List.range height).map fun i ↦
    "│" ++ "┆".intercalate (List.zipWith (fun w cell ↦ padded w (cell[i]?.getD "")) widths cells) ++
      "│"

/-- A table with a heading. -/
def render (heading : List String) (rows : List (List String)) : String :=
  let widths := columnWidths rows heading
  let bodies := rows.map fun row ↦ "\n".intercalate (rowLines widths row)
  let body := if bodies.isEmpty then []
    else [("\n" ++ betweenRows.draw widths ++ "\n").intercalate bodies]
  "\n".intercalate
    ([top.draw widths, "\n".intercalate (rowLines widths heading), belowHeading.draw widths] ++
      body ++ [bottom.draw widths])

end Suspension.Text.BoxTable
