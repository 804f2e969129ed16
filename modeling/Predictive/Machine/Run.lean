import Predictive.Machine.Halting
import Predictive.Text.Words

namespace Predictive

/-- A configuration with the action taken in it. -/
structure Step where
  config : Config
  action : Action

structure Trace where
  steps : List Step
  verdict : Verdict

namespace Table

variable {g : Grammar} (T : Table g)

/-- The run ends: between two tokens, cells that hold one production are entered only finitely
often. -/
def traceFrom (c : Config) : Trace :=
  match _ : T.action c with
  | .halt verdict => ⟨[⟨c, .halt verdict⟩], verdict⟩
  | .matched s =>
    let rest := traceFrom c.advance
    { rest with steps := ⟨c, .matched s⟩ :: rest.steps }
  | .expand e =>
    let rest := traceFrom (c.expand e)
    { rest with steps := ⟨c, .expand e⟩ :: rest.steps }
termination_by (⟨c⟩ : State T)
decreasing_by
  · exact .matched ‹_›
  · exact .expand ‹_›

variable {T} {c : Config}

theorem traceFrom_of_halt {verdict : Verdict} (h : T.action c = .halt verdict) :
    T.traceFrom c = ⟨[⟨c, .halt verdict⟩], verdict⟩ := by
  rw [traceFrom]
  split <;> simp_all

theorem traceFrom_of_matched {s : Symbol} (h : T.action c = .matched s) :
    T.traceFrom c =
      ⟨⟨c, .matched s⟩ :: (T.traceFrom c.advance).steps, (T.traceFrom c.advance).verdict⟩ := by
  rw [traceFrom]
  split <;> simp_all

theorem traceFrom_of_expand {e : Entry} (h : T.action c = .expand e) :
    T.traceFrom c =
      ⟨⟨c, .expand e⟩ :: (T.traceFrom (c.expand e)).steps, (T.traceFrom (c.expand e)).verdict⟩ := by
  rw [traceFrom]
  split <;> simp_all

variable (T)

/-- The end of the input is below the start symbol and behind the tokens. -/
def initial (g : Grammar) (tokens : List String) : Config where
  stack := [.nonTerminal g.start, .endOfInput]
  input := tokens.map .terminal ++ [.endOfInput]
  position := 0

def trace (tokens : List String) : Trace := T.traceFrom (initial g tokens)

/-- Tokens are taken as they are: any text is a terminal. -/
def validate (tokens : List String) : Verdict := (T.trace tokens).verdict

def validateLine (line : String) : Verdict := T.validate (words line.toList)

end Table

end Predictive
