import Predictive.Symbol

namespace Predictive

structure Production where
  left : String
  right : List Symbol
deriving DecidableEq

namespace Production

def isEpsilon (p : Production) : Bool := p.right = [.epsilon]

/-- What replaces the left side: the right side without `ε`. -/
def body (p : Production) : List Symbol := withoutEpsilon p.right

def rightText (p : Production) : String := namesOf p.right

def text (p : Production) : String := p.left ++ " -> " ++ p.rightText

end Production

/-- A production with its number. -/
structure Entry where
  id : Nat
  production : Production
deriving DecidableEq

/-- A right side names something that looks like a non-terminal and has no rule. -/
structure Warning where
  left : String
  name : String
deriving DecidableEq

def Warning.message (w : Warning) : String :=
  w.left ++ ": \"" ++ w.name ++ "\" has no productions and is treated as a terminal"

/-- What a right side may hold: a non-terminal in it is declared, and the end of the input does not
stand there. -/
def Symbol.IsRight (nonTerminals : List String) : Symbol → Prop
  | .terminal _ | .epsilon => True
  | .nonTerminal n => n ∈ nonTerminals
  | .endOfInput => False

/-- Productions are numbered in their order from zero. -/
structure Grammar where
  start : String
  nonTerminals : List String
  productions : List Production
  terminals : List String
  warnings : List Warning
  start_declared : start ∈ nonTerminals
  left_declared : ∀ p ∈ productions, p.left ∈ nonTerminals
  right_declared : ∀ p ∈ productions, ∀ s ∈ p.right, s.IsRight nonTerminals

namespace Grammar

variable (g : Grammar)

def isNonTerminal (name : String) : Bool := g.nonTerminals.contains name

def productionsOf (name : String) : List Production := g.productions.filter (·.left = name)

def entriesOf (name : String) : List Entry :=
  (g.productions.zipIdx.filter (·.1.left = name)).map fun (p, id) => ⟨id, p⟩

def productionIds (name : String) : List Nat := (g.entriesOf name).map Entry.id

theorem mem_productionsOf {g : Grammar} {name : String} {p : Production} :
    p ∈ g.productionsOf name ↔ p ∈ g.productions ∧ p.left = name := by
  simp [productionsOf]

theorem mem_entriesOf {g : Grammar} {name : String} {e : Entry} :
    e ∈ g.entriesOf name ↔ g.productions[e.id]? = some e.production ∧ e.production.left = name := by
  simp only [entriesOf, List.mem_map, List.mem_filter, Prod.exists, List.mem_zipIdx_iff_getElem?,
    decide_eq_true_eq]
  constructor
  · rintro ⟨p, id, h, rfl⟩
    exact h
  · intro h
    exact ⟨e.production, e.id, h, rfl⟩

theorem endOfInput_notMem_right {g : Grammar} {p : Production} (hp : p ∈ g.productions) :
    .endOfInput ∉ p.right :=
  fun h => g.right_declared p hp _ h

end Grammar

end Predictive
