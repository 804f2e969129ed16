import Predictive.Analysis.Follow

namespace Predictive

/-- The three saturations of a grammar, each with the events of its passes. -/
structure Analysis (g : Grammar) where
  nullableRun : Saturation.Outcome (Family g.nonTerminals Bool) String
  firstRun : Saturation.Outcome (Grammar.FirstSets g nullableRun.state) Growth
  followRun : Saturation.Outcome (Grammar.FollowSets g) Growth

def Grammar.analyse (g : Grammar) : Analysis g :=
  let nullable := g.nullable
  let first := g.first nullable.state
  ⟨nullable, first, g.follow first.state⟩

namespace Analysis

variable {g : Grammar} (A : Analysis g)

def isNullable (s : Symbol) : Bool := s.isNullable A.nullableRun.state

def firstOfSymbol (s : Symbol) : First :=
  .ofSymbol A.nullableRun.state A.firstRun.state.sets s

def first (l : List Symbol) : First :=
  .ofSequence A.nullableRun.state A.firstRun.state.sets l

def follow? (name : String) : Option SymbolSet := A.followRun.state.sets.get? name

def follow (name : String) : SymbolSet := A.followRun.state.sets.getD name ∅

/-- The lookaheads on which a production applies: what its right side begins with and, if that can
vanish, what follows its left side. -/
def predict (p : Production) : SymbolSet :=
  let right := A.first p.right
  if right.nullable then right.symbols ∪ A.follow p.left else right.symbols

variable {p : Production} {t : Symbol} {l : List Symbol}

theorem mem_predict : t ∈ A.predict p ↔
    t ∈ (A.first p.right).symbols ∨ (A.first p.right).nullable ∧ t ∈ A.follow p.left := by
  unfold predict
  cases h : (A.first p.right).nullable <;> simp [h]

theorem nullable_first_iff : (g.analyse.first l).nullable ↔ g.Vanishes l :=
  (iff_of_eq (congrArg (· = true) First.nullable_ofSequence)).trans Grammar.all_isNullable_iff

theorem mem_first_iff : t ∈ (g.analyse.first l).symbols ↔ g.Begins t l := Grammar.mem_first_iff

theorem mem_predict_iff : t ∈ g.analyse.predict p ↔
    g.Begins t p.right ∨ g.Vanishes p.right ∧ t ∈ g.analyse.follow p.left := by
  rw [mem_predict, mem_first_iff, nullable_first_iff]

theorem mem_follow (hp : p ∈ g.productions) {u rest : List Symbol} {n : String}
    (hr : p.right = u ++ .nonTerminal n :: rest) (hn : n ∈ g.nonTerminals)
    (ht : g.Begins t rest ∨ g.Vanishes rest ∧ t ∈ g.analyse.follow p.left) :
    t ∈ g.analyse.follow n := by
  refine Grammar.follow_closed hp hr hn (ht.imp Grammar.mem_first_iff.2 ?_)
  exact And.imp_left Grammar.all_isNullable_iff.2

end Analysis

end Predictive
