import Predictive.Machine.Run
import Predictive.Report.Aligned
import Predictive.Text.Json
import Predictive.Text.Latex

namespace Predictive

structure StepReport where
  stack : String
  input : String
  action : String

structure ValidationReport where
  input : String
  reason : Option String
  steps : List StepReport

def Action.text : Action → String
  | matched s => "match " ++ s.name
  | expand e => e.production.text
  | halt .accepted => "accept"
  | halt (.rejected reason) => "reject: " ++ reason.message

/-- The bottom of the stack is written first. -/
def Step.report (s : Step) : StepReport where
  stack := namesOf s.config.stack.reverse
  input := namesOf s.config.input
  action := s.action.text

/-- The report on a line; the steps are left out unless they are asked for. -/
def Trace.report (tokens : List String) (t : Trace) (withSteps : Bool) : ValidationReport where
  input := " ".intercalate tokens
  reason := t.verdict.reason?.map Rejection.message
  steps := if withSteps then t.steps.map Step.report else []

def Table.validationReport {g : Grammar} (T : Table g) (line : String) (withSteps : Bool) :
    ValidationReport :=
  let tokens := words line.toList
  (T.trace tokens).report tokens withSteps

namespace StepReport

def cells (s : StepReport) : List String := [s.stack, s.input, s.action]

def json (s : StepReport) : Json :=
  .object [("stack", .string s.stack), ("input", .string s.input), ("action", .string s.action)]

end StepReport

namespace ValidationReport

def accepted (r : ValidationReport) : Bool := r.reason.isNone

def verdictText (r : ValidationReport) (format : String → String) : String :=
  match r.reason with
  | none => "accepted"
  | some reason => "rejected: " ++ format reason

def verdictLine (r : ValidationReport) : String := r.input ++ " : " ++ r.verdictText id

def plain (r : ValidationReport) : String :=
  if r.steps.isEmpty then r.verdictLine
  else aligned (["stack", "input", "action"] :: r.steps.map StepReport.cells) ++ "\n" ++ r.verdictLine

def latex (r : ValidationReport) : String :=
  "\\begin" ++ Latex.braced "tabular" ++ Latex.braced "l|l|l" ++
    "\nStack & Input & Action\\\\\\hline\n" ++
    Latex.rows (r.steps.map fun s => Latex.columns (s.cells.map Latex.escape)) ++
    "\n\\end" ++ Latex.braced "tabular" ++
    "\n\n\\texttt" ++ Latex.braced (Latex.escape r.input) ++ ": " ++ r.verdictText Latex.escape

def json (r : ValidationReport) : Json :=
  .object [("input", .string r.input), ("accepted", .bool r.accepted),
    ("reason", .ofOption r.reason), ("steps", .array (r.steps.map StepReport.json))]

end ValidationReport

end Predictive
