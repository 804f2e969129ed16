import Predictive.Grammar.Basic
import Predictive.Grammar.Error
import Predictive.Text.Words

namespace Predictive

/-- Alternatives are given by their words; `ε` alone is the empty one. -/
structure Rule where
  left : String
  alternatives : List (List String)
deriving DecidableEq

namespace Rule

/-- The name that a left side consists of. -/
def readLeft (cs : List Char) : Except LineFault String :=
  match words cs with
  | [] => .error .emptyLeftSide
  | [name] => .ok name
  | _ => .error .blankInLeftSide

def isReserved (token : String) : Bool :=
  token = Symbol.epsilonName || token = Symbol.endName

def reservedLeft? (r : Rule) : Option GrammarError :=
  if isReserved r.left then some (.reservedToken r.left r.left) else none

/-- Why an alternative of `left` is refused. -/
def fault? (left : String) (tokens : List String) : Option GrammarError :=
  if tokens = [] then some (.emptyAlternative left)
  else if Symbol.epsilonName ∈ tokens then
    if tokens = [Symbol.epsilonName] then none else some (.epsilonInSequence left)
  else if Symbol.endName ∈ tokens then some (.reservedToken left Symbol.endName)
  else none

/-- The alternatives of all rules in order, each with its left side. -/
def clauses (rules : List Rule) : List (String × List String) :=
  rules.flatMap fun r => r.alternatives.map fun tokens => (r.left, tokens)

/-- The tokens that are looked up while the alternatives are read, each with its left side; reading
ends at the first token that is refused. -/
def tokensRead : List (String × List String) → List (String × String)
  | [] => []
  | (left, tokens) :: rest =>
    (if Symbol.epsilonName ∈ tokens then [] else tokens.takeWhile (· ≠ Symbol.endName)).map (left, ·)
      ++ if (fault? left tokens).isSome then [] else tokensRead rest

def declared (rules : List Rule) : List String := (rules.map left).eraseDups

def symbolOf (declared : List String) (token : String) : Symbol :=
  if token = Symbol.epsilonName then .epsilon
  else if token ∈ declared then .nonTerminal token
  else .terminal token

def productions (rules : List Rule) : List Production :=
  let names := declared rules
  (clauses rules).map fun (left, tokens) => ⟨left, tokens.map (symbolOf names)⟩

def terminals (rules : List Rule) : List String :=
  let names := declared rules
  (((tokensRead (clauses rules)).map Prod.snd).filter (· ∉ names)).eraseDups

def startsUpper (token : String) : Bool := token.toList.head?.any Char.isUpper

/-- The warnings in order of first appearance, also when the rules are refused in the end. -/
def warnings (rules : List Rule) : List Warning :=
  if (rules.findSome? reservedLeft?).isSome then []
  else
    let names := declared rules
    let suspects := (tokensRead (clauses rules)).filter fun (_, token) =>
      token ∉ names && startsUpper token
    (suspects.map fun (left, token) => ⟨left, token⟩).eraseDups

theorem left_mem_declared {rules : List Rule} {p : Production} (h : p ∈ productions rules) :
    p.left ∈ declared rules := by
  simp only [productions, clauses, List.mem_map, List.mem_flatMap] at h
  obtain ⟨_, ⟨r, hr, tokens, _, rfl⟩, rfl⟩ := h
  exact List.mem_eraseDups.2 (List.mem_map.2 ⟨r, hr, rfl⟩)

theorem first_mem_declared (first : Rule) (rest : List Rule) :
    first.left ∈ declared (first :: rest) :=
  List.mem_eraseDups.2 List.mem_cons_self

theorem isRight_symbolOf (names : List String) (token : String) :
    (symbolOf names token).IsRight names := by
  unfold symbolOf
  split
  · trivial
  · split
    · next h => exact h
    · trivial

theorem right_isRight {rules : List Rule} {p : Production} (h : p ∈ productions rules)
    {s : Symbol} (hs : s ∈ p.right) : s.IsRight (declared rules) := by
  obtain ⟨c, _, rfl⟩ := List.mem_map.1 h
  obtain ⟨token, _, rfl⟩ := List.mem_map.1 hs
  exact isRight_symbolOf _ token

end Rule

namespace Grammar

/-- A reserved left side anywhere is refused before any alternative is read. -/
def ofRules (rules : List Rule) : Except GrammarError Grammar :=
  match rules.findSome? Rule.reservedLeft?, rules with
  | some e, _ => .error e
  | none, [] => .error .noStartSymbol
  | none, first :: rest =>
    let rules := first :: rest
    match (Rule.clauses rules).findSome? fun (left, tokens) => Rule.fault? left tokens with
    | some e => .error e
    | none => .ok {
        start := first.left
        nonTerminals := Rule.declared rules
        productions := Rule.productions rules
        terminals := Rule.terminals rules
        warnings := Rule.warnings rules
        start_declared := Rule.first_mem_declared first rest
        left_declared := fun _ => Rule.left_mem_declared
        right_declared := fun _ hp _ => Rule.right_isRight hp }

end Grammar

namespace Rule

/-- Rules from pairs of texts: a left side and its alternatives. Rules are counted from one. -/
def ofTexts (texts : List (String × List String)) : Except GrammarError (List Rule) :=
  (texts.zipIdx 1).mapM fun ((left, alternatives), number) =>
    match readLeft left.toList with
    | .error fault => .error (.line number fault)
    | .ok name => .ok ⟨name, alternatives.map fun a => words a.toList⟩

end Rule

end Predictive
