import Propositional.Text.Standard
import Propositional.TruthTable.Basic

/-!
# Rendered Truth Tables

A truth table is written as one column per variable, in ascending order, and a last column for the
formula. A header names the columns, a line of dashes follows, and then one row per model. Every
column is as wide as its header and has a blank on either side; bars stand around and between the
columns. The last line has no line end.

## Main definitions

* `Table.row`, `Table.rule`: the lines of a table.
* `Formula.renderTruthTable`: the table of a formula.
-/

namespace Propositional

namespace Table

/-- The text with blanks after it up to the given width. -/
def pad (width : Nat) (cell : String) : String :=
  cell ++ String.ofList (List.replicate (width - cell.length) ' ')

/-- A line with the cells, each padded to the width of its column. -/
def row (widths : List Nat) (cells : List String) : String :=
  "|" ++ String.join ((widths.zip cells).map fun (width, cell) => " " ++ pad width cell ++ " |")

/-- The line of dashes below the header. -/
def rule (widths : List Nat) : String :=
  "|" ++ String.join (widths.map fun width =>
    String.ofList (List.replicate (width + 2) '-') ++ "|")

/-- The cells of the values that the model with the given number gives to `count` variables. -/
def assignment (count number : Nat) : List String :=
  (List.range count).map fun i => Model.letter (bit count number i)

/-- All lines of the table with the given column headers, where the last one heads the values. -/
def lines (headers : List String) (values : List Bool) : List String :=
  let widths := headers.map String.length
  let body := values.zipIdx.map fun (value, number) =>
    row widths (assignment (headers.length - 1) number ++ [Model.letter value])
  row widths headers :: rule widths :: body

end Table

/-- The truth table of the formula, as text. -/
def Formula.renderTruthTable (f : Formula) (config : PoolConfig) : Except SemanticsError String :=
  (f.truthTable config).map fun values =>
    "\n".intercalate (Table.lines (f.vars ++ [f.text]) values)

end Propositional
