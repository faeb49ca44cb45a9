import Lineage.Analysis.Members
import Lineage.Text.Width

/-! # Tables

Rows of cells in a frame with round corners. A column is as wide as its widest cell; a line break in
a cell starts another line of the same row. -/

namespace Lineage.Report

/-- The text with blanks up to a width in terminal columns. -/
def padTo (width : Nat) (line : String) : String :=
  line ++ String.ofList (List.replicate (width - Text.width line) ' ')

/-- The lines of a cell. -/
def cellLines (cell : String) : List String :=
  cell.splitOn "\n"

/-- The width of a cell: that of its widest line. -/
def cellWidth (cell : String) : Nat :=
  ((cellLines cell).map Text.width).foldl max 0

/-- The width of every column of the given rows. -/
def columnWidths (columns : Nat) (rows : List (List String)) : List Nat :=
  (List.range columns).map fun column =>
    (rows.map fun row => cellWidth (row.getD column "")).foldl max 0

/-- A horizontal line with marks at its ends and between columns. -/
def rule (widths : List Nat) (left middle right : String) : String :=
  left ++ middle.intercalate
    (widths.map fun width => String.ofList (List.replicate (width + 2) '─')) ++ right

/-- The lines of a row, as many as its highest cell has. -/
def rowLines (widths : List Nat) (row : List String) : List String :=
  let cells := row.map cellLines
  let height := (cells.map List.length).foldl max 1
  (List.range height).map fun line =>
    "│" ++ "│".intercalate ((cells.zip widths).map fun (cell, width) =>
      " " ++ padTo width (cell.getD line "") ++ " ") ++ "│"

/-- A table with a header. Without rows there is no table. -/
def table (header : List String) (rows : List (List String)) : String :=
  if rows.isEmpty then ""
  else
    let widths := columnWidths header.length (header :: rows)
    "\n".intercalate <|
      [rule widths "╭" "┬" "╮"] ++ rowLines widths header ++ [rule widths "├" "┼" "┤"] ++
        rows.flatMap (rowLines widths) ++ [rule widths "╰" "┴" "╯"]

/-- A table of counts. -/
def countTable (rows : List (String × Nat)) : String :=
  table ["Kind", "Count"] (rows.map fun (kind, count) => [kind, toString count])

/-- How many bindings of each kind belong to a root, and how many flows of values there are. -/
def kindTable (analysis : Analysis) : String :=
  countTable ((analysis.countByKind.map fun (kind, count) => (kind.name, count)) ++
    [("edges", analysis.edges.length)])

/-- All flows of values, by the paths of their ends. -/
def edgeTable (analysis : Analysis) : String :=
  table ["Source", "Target"]
    (analysis.edges.map fun (source, target) => [analysis.path source, analysis.path target])

end Lineage.Report
