import Predictive.Table.Basic

namespace Predictive

/-- Why an input is rejected; positions count the tokens from zero. -/
inductive Rejection
  | unexpectedToken (expected found : Symbol) (position : Nat)
  | noApplicableProduction (nonTerminal : String) (found : Symbol) (position : Nat)
  | ambiguousDecision (nonTerminal : String) (found : Symbol) (position : Nat) (ids : List Nat)
  | trailingInput (position : Nat)
deriving DecidableEq

def Rejection.message : Rejection → String
  | unexpectedToken expected found position =>
    "token " ++ toString position ++ ": expected " ++ expected.name ++ ", found " ++ found.name
  | noApplicableProduction nonTerminal found position =>
    "token " ++ toString position ++ ": no production of " ++ nonTerminal ++ " applies on " ++
      found.name
  | ambiguousDecision nonTerminal found position ids =>
    "token " ++ toString position ++ ": " ++ nonTerminal ++ " has " ++ toString ids.length ++
      " productions on " ++ found.name
  | trailingInput position =>
    "token " ++ toString position ++ ": input remains after the stack is empty"

inductive Verdict
  | accepted
  | rejected (reason : Rejection)
deriving DecidableEq

namespace Verdict

def isAccepted : Verdict → Bool
  | accepted => true
  | rejected _ => false

def reason? : Verdict → Option Rejection
  | accepted => none
  | rejected reason => some reason

end Verdict

inductive Action
  | matched (symbol : Symbol)
  | expand (entry : Entry)
  | halt (verdict : Verdict)
deriving DecidableEq

/-- The top of the stack is its head; the input is what has not been read. -/
structure Config where
  stack : List Symbol
  input : List Symbol
  position : Nat
deriving DecidableEq

namespace Config

def advance (c : Config) : Config := ⟨c.stack.tail, c.input.tail, c.position + 1⟩

def expand (c : Config) (e : Entry) : Config :=
  { c with stack := e.production.body ++ c.stack.tail }

end Config

namespace Table

variable {g : Grammar} (T : Table g)

/-- A cell decides only when it holds one production. -/
def decideOn (name : String) (found : Symbol) (position : Nat) : Action :=
  match T.get name found with
  | [] => .halt (.rejected (.noApplicableProduction name found position))
  | [e] => .expand e
  | es => .halt (.rejected (.ambiguousDecision name found position (es.map Entry.id)))

def action (c : Config) : Action :=
  match c.stack, c.input with
  | [], [] => .halt .accepted
  | [], _ :: _ => .halt (.rejected (.trailingInput c.position))
  | top :: _, [] => .halt (.rejected (.unexpectedToken top .endOfInput c.position))
  | .nonTerminal name :: _, found :: _ => T.decideOn name found c.position
  | top :: _, found :: _ =>
    if top = found then .matched found
    else .halt (.rejected (.unexpectedToken top found c.position))

/-- `T.Moves c' c` when `c'` comes right after `c`. -/
inductive Moves : Config → Config → Prop
  | matched {c s} : T.action c = .matched s → Moves c.advance c
  | expand {c e} : T.action c = .expand e → Moves (c.expand e) c

theorem decideOn_eq_expand {T : Table g} {name : String} {t : Symbol} {position : Nat} {e : Entry} :
    T.decideOn name t position = .expand e ↔ T.get name t = [e] := by
  unfold decideOn
  split <;> simp_all

theorem decideOn_ne_matched {T : Table g} {name : String} {t s : Symbol} {position : Nat} :
    T.decideOn name t position ≠ .matched s := by
  unfold decideOn
  split <;> simp

end Table

end Predictive
