import Predictive.Grammar.Text
import Predictive.Machine.Run
import Predictive.Report.Format

namespace Predictive

inductive Level
  | error
  | warn
  | info
  | debug
  | trace
deriving DecidableEq

namespace Level

def rank : Level → Nat
  | error => 0
  | warn => 1
  | info => 2
  | debug => 3
  | trace => 4

def name : Level → String
  | error => "ERROR"
  | warn => "WARN"
  | info => "INFO"
  | debug => "DEBUG"
  | trace => "TRACE"

end Level

inductive SetKind
  | nullable
  | first
  | follow
deriving DecidableEq

def SetKind.name : SetKind → String
  | nullable => "nullable"
  | first => "first"
  | follow => "follow"

/-- What happens while a grammar is read, analysed and used, as far as it is logged. -/
inductive Event
  | warned (warning : Warning)
  | grammarRead (productions : Nat) (start : String)
  | markedNullable (pass : Nat) (name : String)
  | firstGrew (pass : Nat) (growth : Growth)
  | followGrew (pass : Nat) (growth : Growth)
  | saturated (kind : SetKind) (passes : Nat)
  | conflict (cell : Cell)
  | tableBuilt (rows columns : Nat)
  | matched (symbol : Symbol) (position : Nat)
  | expanded (production : Production) (lookahead : Symbol)
  | rejected (reason : Rejection)
  | printing (output : Output)

namespace Event

def level : Event → Level
  | warned _ | conflict _ => .warn
  | grammarRead _ _ => .info
  | markedNullable _ _ | firstGrew _ _ | followGrew _ _ => .trace
  | saturated _ _ | tableBuilt _ _ | matched _ _ | expanded _ _ | rejected _ | printing _ => .debug

/-- The part of the program that logs the event. -/
def target : Event → String
  | warned _ => "ll1_helper::grammar::grammar"
  | markedNullable _ _ | firstGrew _ _ | followGrew _ _ | saturated _ _ =>
    "ll1_helper::grammar::first_follow"
  | conflict _ | tableBuilt _ _ => "ll1_helper::grammar::ll1_table"
  | matched _ _ | expanded _ _ | rejected _ => "ll1_helper::grammar::validate"
  | grammarRead _ _ | printing _ => "ll1_helper"

def grewText (kind set : String) (pass : Nat) (growth : Growth) : String :=
  kind ++ " pass " ++ toString pass ++ ": " ++ set ++ "(" ++ growth.name ++ ") grew to " ++
    toString growth.size

def outputName : Output → String
  | .productions => "Prod"
  | .sets => "Nff"
  | .table => "Ll1"
  | .grid => "Grid"
  | .validation => "Validate"

def message : Event → String
  | warned w => w.message
  | grammarRead productions start =>
    "parsed " ++ toString productions ++ " productions, start symbol " ++ start
  | markedNullable pass name => "nullable pass " ++ toString pass ++ ": " ++ name ++ " is nullable"
  | firstGrew pass growth => grewText "first" "First" pass growth
  | followGrew pass growth => grewText "follow" "Follow" pass growth
  | saturated kind passes =>
    kind.name ++ " reached a fixpoint after " ++ toString passes ++ " passes"
  | conflict c =>
    "conflict at (" ++ c.nonTerminal ++ ", " ++ c.lookahead.name ++ "): " ++ ", ".intercalate c.texts
  | tableBuilt rows columns =>
    "built LL(1) table with " ++ toString rows ++ " rows and " ++ toString columns ++ " columns"
  | matched symbol position => "match " ++ symbol.name ++ " at " ++ toString position
  | expanded production lookahead => "expand " ++ production.text ++ " on " ++ lookahead.name
  | rejected reason => "reject: " ++ reason.message
  | printing output => "printing " ++ outputName output

end Event

/-- The warnings about rules; rules that could not be read have none. -/
def Rule.warningEvents : Except GrammarError (List Rule) → List Event
  | .error _ => []
  | .ok rules => (Rule.warnings rules).map .warned

namespace Analysis

variable {g : Grammar} (A : Analysis g)

def nullableEvents : List Event :=
  A.nullableRun.events.map (fun (pass, name) => .markedNullable pass name) ++
    [.saturated .nullable A.nullableRun.passes]

def firstEvents : List Event :=
  A.firstRun.events.map (fun (pass, growth) => .firstGrew pass growth) ++
    [.saturated .first A.firstRun.passes]

def followEvents : List Event :=
  A.followRun.events.map (fun (pass, growth) => .followGrew pass growth) ++
    [.saturated .follow A.followRun.passes]

def events : List Event := A.nullableEvents ++ A.firstEvents ++ A.followEvents

end Analysis

namespace Table

variable {g : Grammar} (T : Table g)

def events : List Event :=
  T.conflicts.map .conflict ++ [.tableBuilt g.nonTerminals.length T.columns.length]

/-- From the analysis to the finished table. -/
def buildEvents : List Event := T.analysis.events ++ T.events

end Table

/-- Acceptance is not logged. -/
def Step.event? (s : Step) : Option Event :=
  match s.action with
  | .matched symbol => some (.matched symbol s.config.position)
  | .expand e => some (.expanded e.production (s.config.input.headD .endOfInput))
  | .halt .accepted => none
  | .halt (.rejected reason) => some (.rejected reason)

def Trace.events (t : Trace) : List Event := t.steps.filterMap Step.event?

end Predictive
