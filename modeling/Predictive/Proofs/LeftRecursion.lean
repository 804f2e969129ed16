import Predictive.Grammar.Text
import Predictive.Proofs.Cells
import Predictive.Proofs.First
import Predictive.Proofs.Follow
import Predictive.Proofs.Run

namespace Predictive

variable {g : Grammar} {n : String} {l : List Symbol}

namespace Grammar

/-- Some derivation brings the non-terminal back to the front. -/
def LeftRecursive (g : Grammar) (n : String) : Prop :=
  ∃ rest, Relation.TransGen g.Produces [.nonTerminal n] (.nonTerminal n :: rest)

/-- The sequence derives one with the non-terminal in front. -/
def LeadsTo (g : Grammar) (n : String) (l : List Symbol) : Prop :=
  ∃ rest, g.Derives l (.nonTerminal n :: rest)

theorem LeadsTo.append_right (h : g.LeadsTo n l) (m : List Symbol) : g.LeadsTo n (l ++ m) := by
  obtain ⟨rest, hd⟩ := h
  exact ⟨rest ++ m, hd.append_right m⟩

theorem LeadsTo.begins {t : Symbol} (h : g.LeadsTo n l) (ht : g.Begins t [.nonTerminal n]) :
    g.Begins t l := by
  obtain ⟨rest, hd⟩ := h
  apply hd.begins
  exact ht.append_right rest

theorem LeftRecursive.exists_body (h : g.LeftRecursive n) :
    ∃ p ∈ g.productions, p.left = n ∧ g.LeadsTo n p.body := by
  obtain ⟨rest, h⟩ := h
  obtain ⟨m, hs, hd⟩ := Relation.TransGen.head'_iff.mp h
  obtain ⟨p, hp, e, rfl⟩ | ⟨l', hl', -⟩ := produces_cons hs
  · rw [List.append_nil] at hd
    exact ⟨p, hp, (Symbol.nonTerminal.inj e).symm, rest, hd⟩
  · exact absurd hl' not_produces_nil

/-- What leads to a left-recursive non-terminal begins with a non-terminal, and still leads there
after an expansion of it. -/
theorem LeadsTo.exists_expansion (hr : g.LeftRecursive n) (h : g.LeadsTo n l) :
    ∃ p ∈ g.productions, ∃ rest, l = .nonTerminal p.left :: rest ∧ g.LeadsTo n (p.body ++ rest) := by
  obtain ⟨z, hd⟩ := h
  cases l with
  | nil => cases eq_nil_of_derives hd
  | cons s l =>
    cases s with
    | nonTerminal m =>
      obtain ⟨z', hz, -⟩ | ⟨p, hp, rfl, hb⟩ := stays_or_expands hd
      · obtain ⟨p, hp, hl, hb⟩ := hr.exists_body
        have hm : m = n := by
          simpa using (List.cons.inj hz).1.symm
        exact ⟨p, hp, l, by rw [hl, hm], hb.append_right l⟩
      · exact ⟨p, hp, l, rfl, z, hb⟩
    | terminal _ | epsilon | endOfInput =>
      obtain ⟨z', hz, -⟩ := exists_derives_tail (by simp) hd
      simp at hz

end Grammar

namespace Table

variable {T : Table g} {c : Config} {t : Symbol}

/-- Without conflicts the production that leads back to the non-terminal is alone in its cell, so
that the machine takes it. -/
theorem action_of_leadsTo (h : T.isLL1) (hr : g.LeftRecursive n)
    (ht : g.Begins t [.nonTerminal n]) (hin : c.input = [t]) (hf : g.FollowClosed c.stack)
    (hc : g.LeadsTo n c.stack) :
    ∃ e, T.action c = .expand e ∧ g.FollowClosed (c.expand e).stack ∧
      g.LeadsTo n (c.expand e).stack := by
  obtain ⟨p, hp, rest, hs, hb⟩ := hc.exists_expansion hr
  obtain ⟨stack, input, position⟩ := c
  subst hs hin
  have hpt : t ∈ g.analyse.predict p := hf.mem_predict hp (hb.begins ht)
  obtain ⟨e, he, rfl⟩ := exists_entry (T := T) hp hpt
  have hcell : T.get e.production.left t = [e] := get_eq_singleton h he
  exact ⟨e, decideOn_eq_expand.mpr hcell, hf.expand hp, hb⟩

/-- The machine would go on for ever, but every run ends. -/
theorem not_leadsTo (h : T.isLL1) (hr : g.LeftRecursive n) (ht : g.Begins t [.nonTerminal n])
    (hin : c.input = [t]) (hf : g.FollowClosed c.stack) : ¬ g.LeadsTo n c.stack := by
  induction c using run_induction (T := T) with
  | halt c verdict hv =>
    intro hc
    obtain ⟨e, ha, -⟩ := action_of_leadsTo h hr ht hin hf hc
    rw [hv] at ha
    cases ha
  | matched c s hm =>
    intro hc
    obtain ⟨e, ha, -⟩ := action_of_leadsTo h hr ht hin hf hc
    rw [hm] at ha
    cases ha
  | expand c e hx ih =>
    intro hc
    obtain ⟨e', ha, hf', hc'⟩ := action_of_leadsTo h hr ht hin hf hc
    rw [hx] at ha
    obtain rfl := Action.expand.inj ha
    exact ih hin hf' hc'

theorem not_isLL1_of_begins (T : Table g) (hr : g.LeftRecursive n)
    (ht : g.Begins t [.nonTerminal n]) : ¬ T.isLL1 := by
  intro h
  have hc : (⟨[.nonTerminal n], [t], 0⟩ : Config).input = [t] := rfl
  exact not_leadsTo h hr ht hc (g.followClosed_singleton _) ⟨[], .refl⟩

/-- A left-recursive non-terminal that some terminal can begin, be the recursion direct, through
other non-terminals or behind what vanishes, makes the table report a conflict somewhere. -/
theorem conflicts_of_leftRecursive (T : Table g) (hr : g.LeftRecursive n)
    (hf : (g.analyse.firstOfSymbol (.nonTerminal n)).symbols ≠ ∅) :
    T.isLL1 = false ∧ T.conflicts ≠ [] := by
  obtain ⟨t, ht⟩ := SymbolSet.exists_mem_of_ne_empty hf
  rw [← Analysis.first_singleton, Analysis.mem_first_iff] at ht
  have hl : ¬ T.isLL1 := T.not_isLL1_of_begins hr ht
  constructor
  · exact Bool.eq_false_iff.mpr hl
  · exact mt isLL1_iff_conflicts.mpr hl

/-- The recursion is hidden behind `A`, which may vanish, and the conflict is in the row of `A`. -/
def hidden : Grammar where
  start := "L"
  nonTerminals := ["L", "A"]
  productions := [⟨"L", [.nonTerminal "A", .nonTerminal "L"]⟩, ⟨"A", [.terminal "a"]⟩,
    ⟨"A", [.epsilon]⟩]
  terminals := ["a"]
  warnings := []
  start_declared := by decide
  left_declared := by decide
  right_declared := by simp [Symbol.IsRight]

theorem conflicts_of_leftRecursive_hidden :
    Grammar.ofText "L -> A L\nA -> a | ε" = .ok hidden ∧ hidden.LeftRecursive "L" ∧
      (hidden.analyse.firstOfSymbol (.nonTerminal "L")).symbols ≠ ∅ ∧
      hidden.table.conflicts.map Cell.nonTerminal = ["A"] ∧
      hidden.table.isLL1 = false ∧ hidden.table.conflicts ≠ [] := by
  have hs : hidden.Produces [.nonTerminal "L"] [.nonTerminal "A", .nonTerminal "L"] :=
    ⟨⟨"L", [.nonTerminal "A", .nonTerminal "L"]⟩, by decide, [], [], rfl, rfl⟩
  have ha : hidden.Produces [.nonTerminal "A", .nonTerminal "L"] [.nonTerminal "L"] :=
    ⟨⟨"A", [.epsilon]⟩, by decide, [], [.nonTerminal "L"], rfl, rfl⟩
  have hr : hidden.LeftRecursive "L" := ⟨[], .tail (.single hs) ha⟩
  have hf : (hidden.analyse.firstOfSymbol (.nonTerminal "L")).symbols ≠ ∅ := by
    decide +kernel
  have hrow : hidden.table.conflicts.map Cell.nonTerminal = ["A"] := by
    decide +kernel
  exact ⟨rfl, hr, hf, hrow, conflicts_of_leftRecursive hidden.table hr hf⟩

end Table

end Predictive
