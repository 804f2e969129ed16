import Predictive.Table.Basic
import Predictive.Report.Aligned
import Predictive.Report.Symbols
import Predictive.Text.Json

namespace Predictive

structure CellReport where
  lookahead : String
  productions : List String

structure RowReport where
  name : String
  cells : List CellReport

/-- A table by names: its cells are found by the name of the row and of the column. -/
structure TableReport where
  columns : List String
  rows : List RowReport
  conflicts : List (String × String)
  isLL1 : Bool

def Table.report {g : Grammar} (T : Table g) : TableReport where
  columns := T.columns.map Symbol.name
  rows := T.rows.entries.map fun (name, row) =>
    ⟨name, row.map fun (t, entries) => ⟨t.name, entries.map (·.production.text)⟩⟩
  conflicts := T.conflicts.map fun c => (c.nonTerminal, c.lookahead.name)
  isLL1 := T.isLL1

namespace RowReport

def cell? (r : RowReport) (lookahead : String) : Option CellReport :=
  r.cells.find? (·.lookahead = lookahead)

end RowReport

namespace CellReport

def plain (c : CellReport) : String := ", ".intercalate c.productions

def latexWord (word : String) : String :=
  if word = "->" then "\\rightarrow" else Latex.symbol word

def latexProduction (text : String) : String := Latex.spaced ((Latex.pieces text).map latexWord)

/-- A conflict is set in red. -/
def latex (c : CellReport) : String :=
  let text := "; ".intercalate (c.productions.map latexProduction)
  if 1 < c.productions.length then Latex.braced ("\\color" ++ Latex.braced "red" ++ text) else text

def json (c : CellReport) : Json :=
  .object [("lookahead", .string c.lookahead), ("productions", .strings c.productions)]

end CellReport

namespace TableReport

def cell? (r : TableReport) (name lookahead : String) : Option CellReport :=
  (r.rows.find? (·.name = name)).bind (·.cell? lookahead)

def cellLine (name lookahead productions : String) : String :=
  "(" ++ name ++ ", " ++ lookahead ++ ") : " ++ productions

/-- One line for each cell, one for each conflict, and the verdict. -/
def plain (r : TableReport) : String :=
  textLines
    ((r.rows.flatMap fun row => row.cells.map fun c => cellLine row.name c.lookahead c.plain) ++
      (r.conflicts.map fun (name, lookahead) =>
        "conflict at " ++ cellLine name lookahead (((r.cell? name lookahead).map CellReport.plain).getD "")) ++
      [if r.isLL1 then "LL(1)" else "not LL(1)"])

/-- The cells of a row under all columns; a column without a production stays empty. -/
def line (r : TableReport) (cellText : CellReport → String) (row : RowReport) : List String :=
  r.columns.map fun t => ((row.cell? t).map cellText).getD ""

def grid (r : TableReport) : String :=
  aligned (("" :: r.columns) :: r.rows.map fun row => row.name :: r.line CellReport.plain row)

def latex (r : TableReport) : String :=
  let columnSpec := "c" ++ String.join (r.columns.map fun _ => "|l")
  let corner := "\\[\\begin" ++ Latex.braced "array" ++ Latex.braced columnSpec ++ "\n"
  Latex.columns (corner :: r.columns.map fun t => "\\text" ++ Latex.braced (Latex.escape t)) ++
    "\\\\\\hline\n" ++
    Latex.rows (r.rows.map fun row =>
      Latex.columns (Latex.escape row.name :: r.line CellReport.latex row)) ++
    "\n\\end" ++ Latex.braced "array" ++ "\\]"

def json (r : TableReport) : Json :=
  .object [
    ("terminals", .strings r.columns),
    ("rows", .array (r.rows.map fun row =>
      .object [("name", .string row.name), ("cells", .array (row.cells.map CellReport.json))])),
    ("conflicts", .array (r.conflicts.map fun (name, lookahead) => .strings [name, lookahead])),
    ("ll1", .bool r.isLL1)]

end TableReport

end Predictive
