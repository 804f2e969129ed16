import Predictive.Report.Format

namespace Predictive

structure Options where
  outputs : List Output
  file : Option String
  inputs : List String
  trace : Bool
  latex : Bool
  json : Bool
  verbosity : Nat
  quiet : Bool
deriving DecidableEq

/-- What the program can tell about itself. -/
inductive Notice
  | help
  | summary
  | version
deriving DecidableEq

/-- What a command line asks for. -/
inductive Invocation
  | run (options : Options)
  | tell (notice : Notice)

inductive Flag
  | trace
  | latex
  | json
  | verbose
  | quiet
deriving DecidableEq

/-- Options that take a value. -/
inductive Setting
  | file
  | input
deriving DecidableEq

/-- A name on the command line that stands for an option. -/
inductive OptionName
  | flag (flag : Flag)
  | setting (setting : Setting)
  | notice (notice : Notice)

namespace OptionName

def ofLetter? : Char → Option OptionName
  | 'f' => some (.setting .file)
  | 'i' => some (.setting .input)
  | 't' => some (.flag .trace)
  | 'l' => some (.flag .latex)
  | 'j' => some (.flag .json)
  | 'v' => some (.flag .verbose)
  | 'q' => some (.flag .quiet)
  | 'h' => some (.notice .summary)
  | 'V' => some (.notice .version)
  | _ => none

def ofWord? (word : List Char) : Option OptionName :=
  match String.ofList word with
  | "file" => some (.setting .file)
  | "input" => some (.setting .input)
  | "trace" => some (.flag .trace)
  | "latex" => some (.flag .latex)
  | "json" => some (.flag .json)
  | "verbose" => some (.flag .verbose)
  | "quiet" => some (.flag .quiet)
  | "help" => some (.notice .help)
  | "version" => some (.notice .version)
  | _ => none

end OptionName

def Output.ofWord? : String → Option Output
  | "prod" => some .productions
  | "nff" => some .sets
  | "ll1" => some .table
  | "grid" => some .grid
  | "validate" => some .validation
  | _ => none

namespace Options

def empty : Options := ⟨[], none, [], false, false, false, 0, false⟩

/-- Only the flag for verbosity may be repeated. -/
def raise? (o : Options) : Flag → Option Options
  | .trace => if o.trace then none else some { o with trace := true }
  | .latex => if o.latex then none else some { o with latex := true }
  | .json => if o.json then none else some { o with json := true }
  | .verbose => some { o with verbosity := o.verbosity + 1 }
  | .quiet => if o.quiet then none else some { o with quiet := true }

/-- There is at most one file, and its name is not empty; inputs may be repeated. -/
def set? (o : Options) (value : String) : Setting → Option Options
  | .file => if o.file.isSome || value.isEmpty then none else some { o with file := some value }
  | .input => some { o with inputs := o.inputs ++ [value] }

def addOutput? (o : Options) (word : String) : Option Options :=
  (Output.ofWord? word).map fun output => { o with outputs := o.outputs ++ [output] }

/-- Something has to be printed, in one format. -/
def isComplete (o : Options) : Bool := !o.outputs.isEmpty && !(o.latex && o.json)

def format (o : Options) : Format :=
  if o.latex then .latex else if o.json then .json else .plain

end Options

/-- What an argument does: it ends the reading, waits for a value or changes the options. -/
inductive Reading
  | tell (notice : Notice)
  | await (setting : Setting) (options : Options)
  | continue (options : Options)

namespace Reading

/-- Letters behind one hyphen; a letter that takes a value takes what is behind it. -/
def ofLetters? (o : Options) : List Char → Option Reading
  | [] => some (.continue o)
  | c :: cs =>
    match OptionName.ofLetter? c with
    | none => none
    | some (.notice notice) => some (.tell notice)
    | some (.flag flag) => (o.raise? flag).bind fun o => ofLetters? o cs
    | some (.setting setting) =>
      match cs with
      | [] => some (.await setting o)
      | '=' :: value => (o.set? (.ofList value) setting).map .continue
      | value => (o.set? (.ofList value) setting).map .continue

/-- A word behind two hyphens, with its value if there is an equals sign. -/
def ofWord? (o : Options) (cs : List Char) : Option Reading :=
  let (word, value) := cs.span (· ≠ '=')
  match OptionName.ofWord? word, value with
  | some (.notice notice), [] => some (.tell notice)
  | some (.flag flag), [] => (o.raise? flag).map .continue
  | some (.setting setting), [] => some (.await setting o)
  | some (.setting setting), _ :: value => (o.set? (.ofList value) setting).map .continue
  | _, _ => none

/-- A lone hyphen is not an option. -/
def ofArgument? (o : Options) (arg : String) : Option Reading :=
  match arg.toList with
  | '-' :: '-' :: word => ofWord? o word
  | '-' :: c :: cs => ofLetters? o (c :: cs)
  | _ => (o.addOutput? arg).map .continue

end Reading

/-- A value that is an argument of its own does not look like an option. -/
def isDetachedValue (arg : String) : Bool :=
  match arg.toList with
  | '-' :: _ :: _ => false
  | _ => true

namespace Invocation

/-- Reads arguments from the left; `none` is a usage error. -/
def ofArguments? (o : Options) : List String → Option Invocation
  | [] => if o.isComplete then some (.run o) else none
  | "--" :: words =>
    (words.foldlM Options.addOutput? o).bind fun o => if o.isComplete then some (.run o) else none
  | arg :: rest =>
    match Reading.ofArgument? o arg, rest with
    | none, _ => none
    | some (.tell notice), _ => some (.tell notice)
    | some (.continue o), rest => ofArguments? o rest
    | some (.await _ _), [] => none
    | some (.await setting o), value :: rest =>
      if isDetachedValue value then
        match o.set? value setting with
        | none => none
        | some o => ofArguments? o rest
      else none

end Invocation

end Predictive
