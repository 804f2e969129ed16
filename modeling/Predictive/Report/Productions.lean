import Predictive.Grammar.Basic
import Predictive.Report.Aligned
import Predictive.Report.Symbols
import Predictive.Text.Json

namespace Predictive

/-- A left side with the texts of its right sides. -/
structure RuleReport where
  left : String
  rights : List String

namespace RuleReport

/-- Later alternatives go on lines of their own or stay on the line of the first. -/
def plain (r : RuleReport) (width : Nat) (multiline : Bool) : String :=
  match r.rights with
  | [] => ""
  | first :: others =>
    let head := padLeft width r.left ++ " -> " ++ first
    if multiline then
      textLines (head :: others.map fun right => padLeft width "" ++ "  | " ++ right)
    else String.join (head :: others.map fun right => " | " ++ right)

def latex (r : RuleReport) : String :=
  Latex.columns
    [Latex.escape r.left, "\\rightarrow", " \\mid ".intercalate (r.rights.map Latex.sequence)]

def json (r : RuleReport) : Json :=
  .object [("left", .string r.left), ("rights", .strings r.rights)]

end RuleReport

structure ProductionsReport where
  rules : List RuleReport

def Grammar.productionsReport (g : Grammar) : ProductionsReport where
  rules := g.nonTerminals.map fun name => ⟨name, (g.productionsOf name).map Production.rightText⟩

namespace ProductionsReport

def leftWidth (r : ProductionsReport) : Nat := (r.rules.map (·.left.length)).max?.getD 0

def plain (r : ProductionsReport) : String :=
  textLines (r.rules.map fun rule => rule.plain r.leftWidth true)

def latex (r : ProductionsReport) : String :=
  Latex.rows
    (("\\[\\begin" ++ Latex.braced "array" ++ Latex.braced "cll") :: r.rules.map RuleReport.latex ++
      ["\\end" ++ Latex.braced "array" ++ "\\]"])

def json (r : ProductionsReport) : Json :=
  .object [("productions", .array (r.rules.map RuleReport.json))]

end ProductionsReport

end Predictive
