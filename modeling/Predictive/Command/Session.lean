import Predictive.Command.Help
import Predictive.Event

namespace Predictive

/-- Why a source cannot be read. -/
inductive ReadFault
  | notFound
  | isDirectory
  | notDirectory
  | notUtf8
  | other (text : String)
deriving DecidableEq

def ReadFault.message : ReadFault → String
  | notFound => "No such file or directory (os error 2)"
  | isDirectory => "Is a directory (os error 21)"
  | notDirectory => "Not a directory (os error 20)"
  | notUtf8 => "stream did not contain valid UTF-8"
  | other text => text

/-- Where grammars come from. -/
structure Sources where
  standardInput : Except ReadFault String
  file : String → Except ReadFault String

inductive Failure
  | unreadableFile (path : String) (fault : ReadFault)
  | unreadableInput (fault : ReadFault)
  | malformedGrammar (e : GrammarError)
  | missingInput
deriving DecidableEq

namespace Failure

def causeText (context cause : String) : String := context ++ "\n\nCaused by:\n    " ++ cause

def message : Failure → String
  | unreadableFile path fault => causeText ("Failed to read " ++ path) fault.message
  | unreadableInput fault => causeText "Failed to read grammar from stdin" fault.message
  | malformedGrammar e => causeText "Malformed grammar" e.message
  | missingInput => "validate needs at least one -i input"

end Failure

/-- What a run has logged and printed so far. -/
structure Console where
  events : List Event
  output : String

def Console.empty : Console := ⟨[], ""⟩

/-- A part of a run. What it logs and prints before it fails is not taken back. -/
abbrev Command := EStateM Failure Console

namespace Command

def log (events : List Event) : Command Unit :=
  modify fun console => { console with events := console.events ++ events }

def printLine (text : String) : Command Unit :=
  modify fun console => { console with output := console.output ++ (text ++ "\n") }

end Command

/-- A run at its end: what is left on the console, and the failure that has ended it. -/
structure Session extends Console where
  result : Except Failure Unit

namespace Options

def source (o : Options) (s : Sources) : Except Failure String :=
  match o.file with
  | some path => (s.file path).mapError (.unreadableFile path)
  | none => s.standardInput.mapError .unreadableInput

def outputEvents (o : Options) {g : Grammar} (T : Table g) (output : Output) : List Event :=
  .printing output ::
    match output with
    | .validation => o.inputs.flatMap fun line => (T.trace (words line.toList)).events
    | _ => []

def outputText (o : Options) {g : Grammar} (T : Table g) : Output → String
  | .productions => g.productionsReport.text o.format
  | .sets => T.analysis.setsReport.text o.format
  | .table => T.report.text o.format
  | .grid => T.report.gridText o.format
  | .validation =>
    textLines (o.inputs.map fun line => (T.validationReport line o.trace).text o.format)

def readGrammar (o : Options) (s : Sources) : Command Grammar := do
  let text ← MonadExcept.ofExcept (o.source s)
  let rules := Rule.ofText text
  Command.log (Rule.warningEvents rules)
  MonadExcept.ofExcept ((rules >>= Grammar.ofRules).mapError .malformedGrammar)

/-- Without an input there is nothing to validate. -/
def requireInput (o : Options) : Command Unit :=
  if .validation ∈ o.outputs ∧ o.inputs = [] then throw .missingInput else pure ()

def printOutput (o : Options) {g : Grammar} (T : Table g) (output : Output) : Command Unit := do
  Command.log (o.outputEvents T output)
  Command.printLine (o.outputText T output)

def run (o : Options) (s : Sources) : Command Unit := do
  let g ← o.readGrammar s
  let T := g.table
  Command.log (.grammarRead g.productions.length g.start :: T.buildEvents)
  o.requireInput
  o.outputs.forM (o.printOutput T)

def session (o : Options) (s : Sources) : Session :=
  match (o.run s).run .empty with
  | .ok _ console => ⟨console, .ok ()⟩
  | .error failure console => ⟨console, .error failure⟩

/-- The last level that is logged. -/
def level (o : Options) : Level :=
  if o.quiet then .error
  else
    match o.verbosity with
    | 0 => .warn
    | 1 => .info
    | 2 => .debug
    | _ => .trace

end Options

def Event.line (e : Event) : String :=
  let name := e.level.name
  "[" ++ name ++ String.ofList (List.replicate (5 - name.length) ' ') ++ " " ++ e.target ++ "] " ++
    e.message ++ "\n"

/-- What a command line writes, and its exit code. -/
structure Response where
  code : Nat
  output : String
  log : String

namespace Session

def logged (s : Session) (level : Level) : List Event :=
  s.events.filter fun e => e.level.rank ≤ level.rank

def log (s : Session) (level : Level) : String := String.join ((s.logged level).map Event.line)

def response (s : Session) (level : Level) : Response :=
  match s.result with
  | .ok _ => ⟨0, s.output, s.log level⟩
  | .error failure => ⟨1, s.output, s.log level ++ "Error: " ++ failure.message ++ "\n"⟩

end Session

namespace Invocation

def ofCommandLine? (args : List String) : Option Invocation := ofArguments? .empty args

def response (sources : Sources) : Invocation → Response
  | run o => (o.session sources).response o.level
  | tell notice => ⟨0, notice.text, ""⟩

end Invocation

end Predictive
