import Predictive.Grammar.Basic

namespace Predictive

namespace Grammar

/-- The sequence derives the empty word. -/
inductive Vanishes (g : Grammar) : List Symbol → Prop
  | nil : Vanishes g []
  | epsilon {rest} : Vanishes g rest → Vanishes g (.epsilon :: rest)
  | expand {p rest} : p ∈ g.productions → Vanishes g p.right → Vanishes g rest →
      Vanishes g (.nonTerminal p.left :: rest)

/-- The sequence derives one that begins with `t`. -/
inductive Begins (g : Grammar) (t : Symbol) : List Symbol → Prop
  | head {rest} : t.isInput → Begins g t (t :: rest)
  | expand {p rest} : p ∈ g.productions → Begins g t p.right →
      Begins g t (.nonTerminal p.left :: rest)
  | skip {s rest} : Vanishes g [s] → Begins g t rest → Begins g t (s :: rest)

variable {g : Grammar} {t s : Symbol} {l m : List Symbol}

theorem Vanishes.append (hl : g.Vanishes l) (hm : g.Vanishes m) : g.Vanishes (l ++ m) := by
  induction hl with
  | nil => exact hm
  | epsilon _ ih => exact .epsilon ih
  | expand hp hr _ _ ih => exact .expand hp hr ih

theorem vanishes_append : g.Vanishes (l ++ m) ↔ g.Vanishes l ∧ g.Vanishes m := by
  refine ⟨fun h => ?_, fun h => h.1.append h.2⟩
  induction l with
  | nil => exact ⟨.nil, h⟩
  | cons s l ih =>
    cases h with
    | epsilon h => exact ⟨.epsilon (ih h).1, (ih h).2⟩
    | expand hp hr h => exact ⟨.expand hp hr (ih h).1, (ih h).2⟩

theorem vanishes_cons : g.Vanishes (s :: l) ↔ g.Vanishes [s] ∧ g.Vanishes l :=
  vanishes_append (l := [s])

theorem Begins.append_right (h : g.Begins t l) (m : List Symbol) : g.Begins t (l ++ m) := by
  induction h with
  | head ht => exact .head ht
  | expand hp hr _ => exact .expand hp hr
  | skip hs _ ih => exact .skip hs ih

theorem Begins.append_left (hl : g.Vanishes l) (hm : g.Begins t m) : g.Begins t (l ++ m) := by
  induction l with
  | nil => exact hm
  | cons s l ih =>
    have ⟨hs, hl⟩ := vanishes_cons.mp hl
    exact .skip hs (ih hl)

theorem begins_append : g.Begins t (l ++ m) ↔ g.Begins t l ∨ g.Vanishes l ∧ g.Begins t m := by
  constructor
  · intro h
    induction l with
    | nil => exact .inr ⟨.nil, h⟩
    | cons s l ih =>
      cases h with
      | head ht => exact .inl (.head ht)
      | expand hp hr => exact .inl (.expand hp hr)
      | skip hs h =>
        obtain hl | ⟨hl, hm⟩ := ih h
        · exact .inl (.skip hs hl)
        · exact .inr ⟨vanishes_cons.mpr ⟨hs, hl⟩, hm⟩
  · rintro (h | ⟨hl, hm⟩)
    · exact h.append_right m
    · exact .append_left hl hm

theorem begins_cons : g.Begins t (s :: l) ↔ g.Begins t [s] ∨ g.Vanishes [s] ∧ g.Begins t l :=
  begins_append (l := [s])

theorem isInput_of_begins (h : g.Begins t l) : t.isInput := by
  induction h with
  | head ht => exact ht
  | expand _ _ ih => exact ih
  | skip _ _ ih => exact ih

theorem not_begins_nil : ¬ g.Begins t [] := nofun

theorem not_begins_epsilon : ¬ g.Begins t [.epsilon] := by
  intro h
  cases h with
  | head ht => cases ht
  | skip _ h => exact not_begins_nil h

theorem vanishes_withoutEpsilon : g.Vanishes (withoutEpsilon l) ↔ g.Vanishes l := by
  induction l with
  | nil => exact Iff.rfl
  | cons s l ih =>
    by_cases h : s = .epsilon
    · subst h
      rw [withoutEpsilon_epsilon, ih, vanishes_cons (l := l), and_iff_right (.epsilon .nil)]
    · rw [withoutEpsilon_cons h, vanishes_cons, ih, ← vanishes_cons]

theorem begins_withoutEpsilon : g.Begins t (withoutEpsilon l) ↔ g.Begins t l := by
  induction l with
  | nil => exact Iff.rfl
  | cons s l ih =>
    by_cases h : s = .epsilon
    · subst h
      rw [withoutEpsilon_epsilon, ih, begins_cons (l := l), or_iff_right not_begins_epsilon,
        and_iff_right (.epsilon .nil)]
    · rw [withoutEpsilon_cons h, begins_cons, ih, ← begins_cons]

end Grammar

end Predictive
