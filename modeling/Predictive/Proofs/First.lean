import Predictive.Analysis.Basic
import Predictive.Proofs.Derivation

namespace Predictive.Analysis

variable {g : Grammar} {s t : Symbol} {l : List Symbol}

theorem nullable_first_iff_derives :
    (g.analyse.first l).nullable ↔ g.Derives (withoutEpsilon l) [] := by
  rw [nullable_first_iff]
  exact Grammar.vanishes_iff_derives

theorem mem_first_iff_derives : t ∈ (g.analyse.first l).symbols ↔
    t.isInput ∧ ∃ rest, g.Derives (withoutEpsilon l) (t :: rest) := by
  rw [mem_first_iff]
  exact Grammar.begins_iff_derives

/-- A sequence of one symbol is scanned to the set of that symbol. -/
theorem first_singleton (A : Analysis g) (s : Symbol) : A.first [s] = A.firstOfSymbol s := by
  have hs : (A.firstOfSymbol s).symbols ∪ ∅ = (A.firstOfSymbol s).symbols := by
    apply SymbolSet.ext
    simp
  by_cases hn : (A.firstOfSymbol s).nullable
  · have he : A.first [s] = ⟨(A.firstOfSymbol s).symbols ∪ ∅, true⟩ := if_pos hn
    rw [he, hs, ← hn]
  · exact if_neg hn

/-- A sequence is nullable if it derives the empty one, and its FIRST set holds the terminals and
the end mark that sequences derived from it begin with; a symbol alone has the same. Nothing is
derived from a non-terminal without a rule, so that its FIRST set is empty. -/
theorem first_exact (g : Grammar) (l : List Symbol) :
    ((g.analyse.first l).nullable ↔ g.Derives (withoutEpsilon l) []) ∧
    (∀ t, t ∈ (g.analyse.first l).symbols ↔
      t.isInput ∧ ∃ rest, g.Derives (withoutEpsilon l) (t :: rest)) ∧
    (∀ s, g.analyse.firstOfSymbol s = g.analyse.first [s] ∧
      g.analyse.isNullable s = (g.analyse.first [s]).nullable) ∧
    ∀ n ∉ g.nonTerminals, ∀ z, g.Derives [.nonTerminal n] z ↔ z = [.nonTerminal n] := by
  refine ⟨nullable_first_iff_derives, fun t => mem_first_iff_derives, ?_, ?_⟩
  · intro s
    rw [first_singleton]
    exact ⟨rfl, rfl⟩
  · intro n hn z
    constructor
    · exact Grammar.eq_of_derives_undeclared hn
    · rintro rfl
      exact .refl

end Predictive.Analysis
