import Predictive.Proofs.Derivation

namespace Predictive.Grammar

variable {g : Grammar} {l m : List Symbol} {n : String}

/-- The non-terminal derives some tokens. -/
def Productive (g : Grammar) (n : String) : Prop :=
  ∃ tokens : List String, g.Derives [.nonTerminal n] (tokens.map .terminal)

/-- Terminals and declared non-terminals only. -/
def Sentential (g : Grammar) (l : List Symbol) : Prop :=
  ∀ s ∈ l, s.IsRight g.nonTerminals ∧ s ≠ .epsilon

theorem sentential_append : g.Sentential (l ++ m) ↔ g.Sentential l ∧ g.Sentential m :=
  List.forall_mem_append

theorem sentential_nonTerminal (hn : n ∈ g.nonTerminals) : g.Sentential [.nonTerminal n] := by
  intro s hs
  obtain rfl := List.mem_singleton.mp hs
  exact ⟨hn, by simp⟩

theorem sentential_body {p : Production} (hp : p ∈ g.productions) : g.Sentential p.body := by
  intro s hs
  obtain ⟨hr, he⟩ := List.mem_filter.mp hs
  exact ⟨g.right_declared p hp s hr, of_decide_eq_true he⟩

namespace Sentential

theorem tail {s : Symbol} (h : g.Sentential (s :: l)) : g.Sentential l :=
  (List.forall_mem_cons.mp h).2

theorem produces (h : g.Sentential l) (hs : g.Produces l m) : g.Sentential m := by
  obtain ⟨p, hp, before, after, rfl, rfl⟩ := hs
  obtain ⟨hb, ha⟩ := sentential_append.mp h
  exact sentential_append.mpr ⟨sentential_append.mpr ⟨hb, sentential_body hp⟩, ha.tail⟩

theorem derives (h : g.Sentential l) (hd : g.Derives l m) : g.Sentential m := by
  induction hd with
  | refl => exact h
  | tail _ hs ih => exact ih.produces hs

/-- Where all non-terminals are productive, tokens can be derived from any such sequence. -/
theorem exists_tokens (hp : ∀ n ∈ g.nonTerminals, g.Productive n) (h : g.Sentential l) :
    ∃ tokens : List String, g.Derives l (tokens.map .terminal) := by
  induction l with
  | nil => exact ⟨[], .refl⟩
  | cons s l ih =>
    obtain ⟨hs, hl⟩ := List.forall_mem_cons.mp h
    obtain ⟨rest, hrest⟩ := ih hl
    have hfirst : ∃ tokens : List String, g.Derives [s] (tokens.map .terminal) := by
      cases s with
      | terminal a => exact ⟨[a], .refl⟩
      | nonTerminal n => exact hp n hs.1
      | epsilon => exact absurd rfl hs.2
      | endOfInput => exact hs.1.elim
    obtain ⟨tokens, htokens⟩ := hfirst
    refine ⟨tokens ++ rest, ?_⟩
    rw [List.map_append]
    exact htokens.append hrest

end Sentential

end Predictive.Grammar
