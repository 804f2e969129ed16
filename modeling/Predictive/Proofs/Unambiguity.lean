import Predictive.Proofs.Prediction

namespace Predictive.Table

variable {g : Grammar} {T : Table g} {l : List Symbol} {ids ids' : List Nat} {tokens : List String}

theorem exists_lookahead {before after : List Symbol} (hb : Finished before)
    (h : g.leftmost ids (before ++ after) = some (tokens.map .terminal)) :
    ∃ t : Symbol, (tokens.map .terminal ++ [.endOfInput])[before.length]? = some t := by
  rw [Grammar.leftmost_behind hb] at h
  obtain ⟨z, -, he⟩ := Option.map_eq_some_iff.mp h
  have hlen : before.length < (tokens.map Symbol.terminal ++ [Symbol.endOfInput]).length := by
    rw [← he, List.length_append, List.length_append, List.length_singleton]
    omega
  exact ⟨_, List.getElem?_eq_getElem hlen⟩

/-- Where cells hold one production at most, two leftmost derivations of the same tokens take the
same step: both steps are in the cell of the next token. The induction is on the first of them; it
keeps what FOLLOW says about the sequence that both have reached. -/
theorem eq_of_leftmost (h : T.isLL1) (hf : g.FollowClosed (l ++ [.endOfInput]))
    (hi : g.leftmost ids l = some (tokens.map .terminal))
    (hi' : g.leftmost ids' l = some (tokens.map .terminal)) : ids = ids' := by
  induction ids generalizing l ids' with
  | nil =>
    obtain rfl := Option.some.inj hi
    cases ids' with
    | nil => rfl
    | cons id' ids' =>
      rw [Grammar.leftmost_finished (finished_terminals tokens)] at hi'
      cases hi'
  | cons id ids ih =>
    obtain hl | ⟨before, n, after, hb, rfl⟩ := finished_or_exists l
    · rw [Grammar.leftmost_finished hl] at hi
      cases hi
    cases ids' with
    | nil =>
      have hn : .nonTerminal n ∈ tokens.map Symbol.terminal := by
        rw [← Option.some.inj hi']
        simp
      exact absurd hn (finished_terminals tokens n)
    | cons id' ids' =>
      rw [List.append_assoc, List.cons_append] at hf
      obtain ⟨t, ht⟩ := exists_lookahead hb hi
      obtain ⟨p, hp, hrest⟩ := exists_mem_get_of_leftmost (T := T) hf hb hi ht
      obtain ⟨p', hp', hrest'⟩ := exists_mem_get_of_leftmost (T := T) hf hb hi' ht
      obtain ⟨rfl, rfl⟩ := Entry.mk.inj (eq_of_mem_get h hp hp')
      obtain ⟨hid, rfl, -⟩ := T.mem_get.mp hp
      have hstep : g.FollowClosed (before ++ p.body ++ after ++ [.endOfInput]) := by
        apply hf.produces
        exact ⟨p, List.mem_of_getElem? hid, before, after ++ [.endOfInput], rfl, by simp⟩
      rw [ih hstep hrest hrest']

/-- A grammar with an LL(1) table is unambiguous: tokens have one leftmost derivation at most, be it
told by the numbers of its productions, so that also equal alternatives count as two. -/
theorem leftmost_unique (T : Table g) : (T.isLL1 ↔ T.ensureLL1 = .ok ()) ∧
    (T.isLL1 → ∀ (tokens : List String) (ids ids' : List Nat),
      g.leftmost ids [.nonTerminal g.start] = some (tokens.map .terminal) →
      g.leftmost ids' [.nonTerminal g.start] = some (tokens.map .terminal) → ids = ids') := by
  refine ⟨ensureLL1_eq_ok_iff.symm, ?_⟩
  intro h tokens ids ids' hi hi'
  exact eq_of_leftmost h g.followClosed_start hi hi'

/-- Words of nested brackets; no cell holds two productions. -/
def nested : Grammar where
  start := "S"
  nonTerminals := ["S"]
  productions := [⟨"S", [.terminal "(", .nonTerminal "S", .terminal ")", .nonTerminal "S"]⟩,
    ⟨"S", [.epsilon]⟩]
  terminals := ["(", ")"]
  warnings := []
  start_declared := by decide
  left_declared := by decide
  right_declared := by simp [Symbol.IsRight]

theorem leftmost_unique_nested :
    Grammar.ofText "S -> ( S ) S | ε" = .ok nested ∧ nested.table.isLL1 ∧
      nested.leftmost [0, 0, 1, 1, 1] [.nonTerminal "S"] =
        some (["(", "(", ")", ")"].map .terminal) ∧
      ∀ ids, nested.leftmost ids [.nonTerminal "S"] = some (["(", "(", ")", ")"].map .terminal) →
        ids = [0, 0, 1, 1, 1] := by
  have h : nested.table.isLL1 := by decide +kernel
  have hi : nested.leftmost [0, 0, 1, 1, 1] [.nonTerminal "S"] =
      some (["(", "(", ")", ")"].map .terminal) := rfl
  refine ⟨rfl, h, hi, ?_⟩
  intro ids hids
  exact (leftmost_unique nested.table).2 h _ ids _ hids hi

end Predictive.Table
