import Predictive.Proofs.Leftmost

namespace Predictive.Grammar

/-- Both sequences agree up to their leftmost non-terminal; behind it, the first derives the
second. -/
inductive Lags (g : Grammar) : List Symbol → List Symbol → Prop
  | nil : Lags g [] []
  | keep {s l m} : (∀ n, s ≠ .nonTerminal n) → Lags g l m → Lags g (s :: l) (s :: m)
  | behind {n l m} : g.Derives l m → Lags g (.nonTerminal n :: l) (.nonTerminal n :: m)

variable {g : Grammar} {n : String} {l m k z before after : List Symbol} {ids : List Nat}

namespace Lags

theorem refl (l : List Symbol) : g.Lags l l := by
  induction l with
  | nil => exact .nil
  | cons s l ih =>
    cases s with
    | nonTerminal n => exact .behind .refl
    | terminal _ | epsilon | endOfInput => exact .keep (by simp) ih

theorem trans (h : g.Lags l m) (h' : g.Lags m k) : g.Lags l k := by
  induction h generalizing k with
  | nil => exact h'
  | keep hs _ ih =>
    cases h' with
    | keep _ h' => exact .keep hs (ih h')
    | behind _ => exact absurd rfl (hs _)
  | behind hd =>
    cases h' with
    | keep hs _ => exact absurd rfl (hs _)
    | behind hd' => exact .behind (hd.trans hd')

theorem of_derives (hb : Finished before) (h : g.Derives l m) :
    g.Lags (before ++ .nonTerminal n :: l) (before ++ .nonTerminal n :: m) := by
  induction before with
  | nil => exact .behind h
  | cons s before ih =>
    obtain ⟨hs, hb⟩ := finished_cons.mp hb
    exact .keep hs (ih hb)

theorem eq_of_finished (hz : Finished z) (h : g.Lags l z) : l = z := by
  induction h with
  | nil => rfl
  | keep _ _ ih => rw [ih (finished_cons.mp hz).2]
  | behind _ => exact absurd List.mem_cons_self (hz _)

theorem exists_behind (hb : Finished before) (h : g.Lags l (before ++ .nonTerminal n :: m)) :
    ∃ m', l = before ++ .nonTerminal n :: m' ∧ g.Derives m' m := by
  induction before generalizing l with
  | nil =>
    cases h with
    | keep hs _ => exact absurd rfl (hs n)
    | behind hd => exact ⟨_, rfl, hd⟩
  | cons s before ih =>
    obtain ⟨hs, hb⟩ := finished_cons.mp hb
    cases h with
    | keep _ h =>
      obtain ⟨m', rfl, hd⟩ := ih hb h
      exact ⟨m', rfl, hd⟩
    | behind _ => exact absurd rfl (hs _)

end Lags

/-- A replacement in front of a leftmost derivation takes its turn in it, or is left to be made
behind the leftmost non-terminal. -/
theorem exists_leftmost_of_expansion {p : Production} (hp : p ∈ g.productions)
    (h : g.leftmost ids (before ++ p.body ++ after) = some m) :
    ∃ ids' m', g.leftmost ids' (before ++ .nonTerminal p.left :: after) = some m' ∧
      g.Lags m' m := by
  obtain ⟨id, hid⟩ := List.getElem?_of_mem hp
  induction ids generalizing before with
  | nil =>
    obtain rfl := Option.some.inj h
    obtain hb | ⟨front, n, rest, hf, rfl⟩ := finished_or_exists before
    · exact ⟨[id], _, leftmost_expand_behind hid [] hb after, .refl _⟩
    · have hd : g.Derives (rest ++ .nonTerminal p.left :: after) (rest ++ p.body ++ after) :=
        derives_expand hp rest after
      refine ⟨[], _, rfl, ?_⟩
      simpa using Lags.of_derives (n := n) hf hd
  | cons i ids ih =>
    obtain hb | ⟨front, n, rest, hf, rfl⟩ := finished_or_exists before
    · exact ⟨id :: i :: ids, m, (leftmost_expand_behind hid _ hb after).trans h, .refl m⟩
    · have h' : g.leftmost (i :: ids) (front ++ .nonTerminal n :: (rest ++ p.body ++ after)) =
          some m := by
        simpa using h
      obtain ⟨q, hq, rfl, hrest⟩ := exists_production hf h'
      have hnext : g.leftmost ids ((front ++ q.body ++ rest) ++ p.body ++ after) = some m := by
        simpa using hrest
      obtain ⟨ids', m', hm, hl⟩ := ih hnext
      refine ⟨i :: ids', m', ?_, hl⟩
      have hi := leftmost_expand_behind hq ids' hf (rest ++ .nonTerminal p.left :: after)
      simp only [List.append_assoc, List.cons_append] at hi hm ⊢
      rw [hi, hm]

/-- Any derivation can be put in order: first a leftmost derivation, then replacements behind the
leftmost non-terminal. -/
theorem Derives.standardize (h : g.Derives l m) :
    ∃ ids m', g.leftmost ids l = some m' ∧ g.Lags m' m := by
  induction h using Relation.ReflTransGen.head_induction_on with
  | refl => exact ⟨[], m, rfl, .refl m⟩
  | head hs _ ih =>
    obtain ⟨p, hp, before, after, rfl, rfl⟩ := hs
    obtain ⟨ids, m₁, h₁, hl₁⟩ := ih
    obtain ⟨ids', m₂, h₂, hl₂⟩ := exists_leftmost_of_expansion hp h₁
    exact ⟨ids', m₂, h₂, hl₂.trans hl₁⟩

theorem exists_leftmost (hz : Finished z) (h : g.Derives l z) : ∃ ids, g.leftmost ids l = some z := by
  obtain ⟨ids, m, hm, hl⟩ := h.standardize
  rw [hl.eq_of_finished hz] at hm
  exact ⟨ids, hm⟩

/-- What stands in front of a non-terminal can be finished before anything behind it is touched. -/
theorem exists_leftmost_front (hb : Finished before)
    (h : g.Derives l (before ++ .nonTerminal n :: m)) :
    ∃ ids m', g.leftmost ids l = some (before ++ .nonTerminal n :: m') ∧ g.Derives m' m := by
  obtain ⟨ids, k, hk, hl⟩ := h.standardize
  obtain ⟨m', rfl, hd⟩ := hl.exists_behind hb
  exact ⟨ids, m', hk, hd⟩

end Predictive.Grammar
