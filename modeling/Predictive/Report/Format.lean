import Predictive.Grammar.Text
import Predictive.Report.Productions
import Predictive.Report.Sets
import Predictive.Report.Table
import Predictive.Report.Validation

namespace Predictive

inductive Format
  | plain
  | latex
  | json
deriving DecidableEq

/-- What can be printed about a grammar. -/
inductive Output
  | productions
  | sets
  | table
  | grid
  | validation
deriving DecidableEq

def ProductionsReport.text (r : ProductionsReport) : Format → String
  | .plain => r.plain
  | .latex => r.latex
  | .json => r.json.render

def SetsReport.text (r : SetsReport) : Format → String
  | .plain => r.plain
  | .latex => r.latex
  | .json => r.json.render

def TableReport.text (r : TableReport) : Format → String
  | .plain => r.plain
  | .latex => r.latex
  | .json => r.json.render

def TableReport.gridText (r : TableReport) : Format → String
  | .plain => r.grid
  | format => r.text format

def ValidationReport.text (r : ValidationReport) : Format → String
  | .plain => r.plain
  | .latex => r.latex
  | .json => r.json.render

namespace Json

def ofError (e : GrammarError) : Json := .object [("error", .string e.message)]

/-- The document about the grammar of a text, or about the fault of the text. -/
def ofGrammarText (text : String) (document : Grammar → Json) : Json :=
  match Grammar.ofText text with
  | .error e => ofError e
  | .ok g => document g

def setsDocument (text : String) : String :=
  (ofGrammarText text fun g => g.analyse.setsReport.json).render

def tableDocument (text : String) : String :=
  (ofGrammarText text fun g => g.table.report.json).render

def validationDocument (text line : String) : String :=
  (ofGrammarText text fun g => (g.table.validationReport line true).json).render

end Json

end Predictive
