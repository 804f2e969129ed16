import Predictive.Analysis.Basic
import Predictive.Report.Aligned
import Predictive.Report.Symbols
import Predictive.Text.Json

namespace Predictive

/-- The sets of one non-terminal by the names of their symbols. -/
structure SetsRow where
  name : String
  nullable : Bool
  first : List String
  follow : List String

namespace SetsRow

def setText (names : List String) : String := "\x7b" ++ ", ".intercalate names ++ "\x7d"

def plainFirst (r : SetsRow) : String := "First(" ++ r.name ++ ") = " ++ setText r.first

def plainFollow (r : SetsRow) : String := "Follow(" ++ r.name ++ ") = " ++ setText r.follow

def latexSet (names : List String) : String := "\\ ".intercalate (names.map Latex.symbol)

def latex (r : SetsRow) : String :=
  Latex.columns
    [Latex.escape r.name, if r.nullable then "true" else "false", latexSet r.first, latexSet r.follow]

def json (r : SetsRow) : Json :=
  .object [("name", .string r.name), ("nullable", .bool r.nullable), ("first", .strings r.first),
    ("follow", .strings r.follow)]

end SetsRow

structure SetsReport where
  rows : List SetsRow

/-- A nullable FIRST set lists `ε` last. -/
def Analysis.setsReport {g : Grammar} (A : Analysis g) : SetsReport where
  rows := g.nonTerminals.map fun name =>
    let first := A.firstOfSymbol (.nonTerminal name)
    { name
      nullable := first.nullable
      first := first.symbols.toList.map Symbol.name ++
        if first.nullable then [Symbol.epsilonName] else []
      follow := (A.follow name).toList.map Symbol.name }

namespace SetsReport

def plain (r : SetsReport) : String :=
  textLines (r.rows.map SetsRow.plainFirst ++ r.rows.map SetsRow.plainFollow)

def latex (r : SetsReport) : String :=
  "\\begin" ++ Latex.braced "tabular" ++ Latex.braced "c|c|c|c" ++ "\n" ++
    "Symbol & Nullable & First & Follow\\\\\\hline\n" ++
    "\\\\\n ".intercalate (r.rows.map SetsRow.latex) ++
    "\\\\\n\\end" ++ Latex.braced "tabular"

def json (r : SetsReport) : Json := .object [("data", .array (r.rows.map SetsRow.json))]

end SetsReport

end Predictive
