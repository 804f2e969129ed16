import Mathlib.Logic.Relation
import Predictive.Grammar.Derivation

namespace Predictive

/-- Nothing is left to replace. -/
def Finished (l : List Symbol) : Prop := ∀ n, .nonTerminal n ∉ l

theorem finished_cons {s : Symbol} {l : List Symbol} :
    Finished (s :: l) ↔ (∀ n, s ≠ .nonTerminal n) ∧ Finished l := by
  constructor
  · intro h
    refine ⟨?_, fun n hn => h n (.tail s hn)⟩
    rintro n rfl
    exact h n List.mem_cons_self
  · rintro ⟨hs, hl⟩ n hn
    obtain he | hn := List.mem_cons.mp hn
    · exact hs n he.symm
    · exact hl n hn

theorem finished_or_exists (l : List Symbol) : Finished l ∨
    ∃ before n after, Finished before ∧ l = before ++ .nonTerminal n :: after := by
  induction l with
  | nil => exact .inl nofun
  | cons s l ih =>
    cases s with
    | nonTerminal n => exact .inr ⟨[], n, l, nofun, rfl⟩
    | terminal _ | epsilon | endOfInput =>
      obtain hl | ⟨before, n, after, hb, rfl⟩ := ih
      · exact .inl (finished_cons.mpr ⟨by simp, hl⟩)
      · exact .inr ⟨_ :: before, n, after, finished_cons.mpr ⟨by simp, hb⟩, rfl⟩

theorem finished_terminals (tokens : List String) : Finished (tokens.map .terminal) := by
  intro n hn
  obtain ⟨token, -, he⟩ := List.mem_map.mp hn
  cases he

namespace Grammar

/-- A non-terminal is replaced by a right side of one of its productions, `ε` by nothing. -/
def Produces (g : Grammar) (l m : List Symbol) : Prop :=
  ∃ p ∈ g.productions, ∃ before after,
    l = before ++ .nonTerminal p.left :: after ∧ m = before ++ p.body ++ after

/-- Zero or more replacements, at any places. -/
abbrev Derives (g : Grammar) : List Symbol → List Symbol → Prop :=
  Relation.ReflTransGen g.Produces

/-- The start symbol derives the tokens. -/
def Sentence (g : Grammar) (tokens : List String) : Prop :=
  g.Derives [.nonTerminal g.start] (tokens.map .terminal)

variable {g : Grammar} {s t : Symbol} {n : String} {l m x y z : List Symbol}

theorem Produces.context (h : g.Produces l m) (before after : List Symbol) :
    g.Produces (before ++ l ++ after) (before ++ m ++ after) := by
  obtain ⟨p, hp, u, v, rfl, rfl⟩ := h
  exact ⟨p, hp, before ++ u, v ++ after, by simp, by simp⟩

theorem Derives.context (h : g.Derives l m) (before after : List Symbol) :
    g.Derives (before ++ l ++ after) (before ++ m ++ after) :=
  h.lift (fun l => before ++ l ++ after) fun _ _ hs => hs.context before after

theorem Derives.append_right (h : g.Derives l m) (after : List Symbol) :
    g.Derives (l ++ after) (m ++ after) := by
  simpa using h.context [] after

theorem Derives.append_left (h : g.Derives l m) (before : List Symbol) :
    g.Derives (before ++ l) (before ++ m) := by
  simpa using h.context before []

theorem derives_expand {p : Production} (hp : p ∈ g.productions) (before after : List Symbol) :
    g.Derives (before ++ .nonTerminal p.left :: after) (before ++ p.body ++ after) :=
  .single ⟨p, hp, before, after, rfl, rfl⟩

theorem derives_body {p : Production} (hp : p ∈ g.productions) :
    g.Derives [.nonTerminal p.left] p.body := by
  simpa using derives_expand hp [] []

theorem Derives.append (hl : g.Derives l m) (hx : g.Derives x y) :
    g.Derives (l ++ x) (m ++ y) := by
  have hr : g.Derives (l ++ x) (m ++ x) := hl.append_right x
  exact hr.trans (hx.append_left m)

theorem not_produces_nil : ¬ g.Produces [] m := by
  rintro ⟨p, _, before, after, he, _⟩
  simp at he

theorem eq_nil_of_derives (h : g.Derives [] z) : z = [] := by
  obtain rfl | ⟨m, hs, -⟩ := Relation.ReflTransGen.cases_head h
  · rfl
  · exact absurd hs not_produces_nil

/-- The first symbol is replaced, or it stays and the rest changes. -/
theorem produces_cons (h : g.Produces (s :: l) m) :
    (∃ p ∈ g.productions, s = .nonTerminal p.left ∧ m = p.body ++ l) ∨
      ∃ l', g.Produces l l' ∧ m = s :: l' := by
  obtain ⟨p, hp, before, after, hl, rfl⟩ := h
  cases before with
  | nil =>
    obtain ⟨rfl, rfl⟩ := List.cons.inj hl
    exact .inl ⟨p, hp, rfl, rfl⟩
  | cons a before =>
    obtain ⟨rfl, rfl⟩ := List.cons.inj hl
    exact .inr ⟨before ++ p.body ++ after, ⟨p, hp, before, after, rfl, rfl⟩, rfl⟩

/-- A symbol that cannot be replaced stays in front. -/
theorem exists_derives_tail (hs : ∀ n, s ≠ .nonTerminal n) (h : g.Derives (s :: l) z) :
    ∃ z', z = s :: z' ∧ g.Derives l z' := by
  generalize hk : s :: l = k at h
  induction h using Relation.ReflTransGen.head_induction_on generalizing l with
  | refl => exact ⟨l, hk.symm, .refl⟩
  | head hstep _ ih =>
    subst hk
    obtain ⟨p, _, e, _⟩ | ⟨l', hl', e⟩ := produces_cons hstep
    · exact absurd e (hs p.left)
    · obtain ⟨z', hz, hd⟩ := ih e.symm
      exact ⟨z', hz, .head hl' hd⟩

theorem produces_concat (hs : ∀ n, s ≠ .nonTerminal n) (h : g.Produces (l ++ [s]) m) :
    ∃ l', g.Produces l l' ∧ m = l' ++ [s] := by
  obtain ⟨p, hp, before, after, hl, rfl⟩ := h
  obtain rfl | ⟨after, a, rfl⟩ := List.eq_nil_or_concat after
  · have hlast := List.append_inj_right' hl rfl
    exact absurd (List.singleton_inj.mp hlast) (hs p.left)
  · rw [List.concat_eq_append, ← List.cons_append, ← List.append_assoc] at hl
    obtain ⟨rfl, ha⟩ := List.append_inj' hl rfl
    obtain rfl := List.singleton_inj.mp ha
    exact ⟨before ++ p.body ++ after, ⟨p, hp, before, after, rfl, rfl⟩, by simp⟩

/-- So does one at the end. -/
theorem exists_derives_front (hs : ∀ n, s ≠ .nonTerminal n) (h : g.Derives (l ++ [s]) z) :
    ∃ z', z = z' ++ [s] ∧ g.Derives l z' := by
  generalize hk : l ++ [s] = k at h
  induction h using Relation.ReflTransGen.head_induction_on generalizing l with
  | refl => exact ⟨l, hk.symm, .refl⟩
  | head hstep _ ih =>
    subst hk
    obtain ⟨l', hl', e⟩ := produces_concat hs hstep
    obtain ⟨z', hz, hd⟩ := ih e.symm
    exact ⟨z', hz, .head hl' hd⟩

/-- A non-terminal in front stays there, or it is expanded at some time, so it may be expanded at
once. -/
theorem stays_or_expands (h : g.Derives (.nonTerminal n :: l) z) :
    (∃ z', z = .nonTerminal n :: z' ∧ g.Derives l z') ∨
      ∃ p ∈ g.productions, p.left = n ∧ g.Derives (p.body ++ l) z := by
  generalize hk : .nonTerminal n :: l = k at h
  induction h using Relation.ReflTransGen.head_induction_on generalizing l with
  | refl => exact .inl ⟨l, hk.symm, .refl⟩
  | head hstep hrest ih =>
    subst hk
    obtain ⟨p, hp, e, hm⟩ | ⟨l', hl', e⟩ := produces_cons hstep
    · subst hm
      exact .inr ⟨p, hp, (Symbol.nonTerminal.inj e).symm, hrest⟩
    · obtain ⟨z', hz, hd⟩ | ⟨p, hp, hn, hd⟩ := ih e.symm
      · exact .inl ⟨z', hz, .head hl' hd⟩
      · have hb : g.Produces (p.body ++ l) (p.body ++ l') := by
          simpa using hl'.context p.body []
        exact .inr ⟨p, hp, hn, .head hb hd⟩

theorem exists_expansion (hz : Finished z) (h : g.Derives (.nonTerminal n :: l) z) :
    ∃ p ∈ g.productions, p.left = n ∧ g.Derives (p.body ++ l) z := by
  obtain ⟨z', rfl, -⟩ | hp := stays_or_expands h
  · exact absurd List.mem_cons_self (hz n)
  · exact hp

/-- A non-terminal of no rule cannot be replaced. -/
theorem eq_of_derives_undeclared (hn : n ∉ g.nonTerminals) (h : g.Derives [.nonTerminal n] z) :
    z = [.nonTerminal n] := by
  obtain ⟨z', rfl, hd⟩ | ⟨p, hp, rfl, -⟩ := stays_or_expands h
  · rw [eq_nil_of_derives hd]
  · exact absurd (g.left_declared p hp) hn

theorem Produces.vanishes (h : g.Produces l m) (hm : g.Vanishes m) : g.Vanishes l := by
  obtain ⟨p, hp, before, after, rfl, rfl⟩ := h
  rw [vanishes_append, vanishes_append, Production.body, vanishes_withoutEpsilon] at hm
  obtain ⟨⟨hb, hr⟩, ha⟩ := hm
  apply hb.append
  exact .expand hp hr ha

theorem Produces.begins (h : g.Produces l m) (hm : g.Begins t m) : g.Begins t l := by
  obtain ⟨p, hp, before, after, rfl, rfl⟩ := h
  rw [List.append_assoc, begins_append, begins_append, Production.body, begins_withoutEpsilon,
    vanishes_withoutEpsilon] at hm
  obtain hb | ⟨hb, hr | ⟨hr, ha⟩⟩ := hm
  · exact hb.append_right _
  · exact .append_left hb (.expand hp hr)
  · have hv : g.Vanishes [.nonTerminal p.left] := .expand hp hr .nil
    exact .append_left hb (.skip hv ha)

theorem Derives.vanishes (h : g.Derives l m) (hm : g.Vanishes m) : g.Vanishes l := by
  induction h using Relation.ReflTransGen.head_induction_on with
  | refl => exact hm
  | head hstep _ ih => exact hstep.vanishes ih

theorem Derives.begins (h : g.Derives l m) (hm : g.Begins t m) : g.Begins t l := by
  induction h using Relation.ReflTransGen.head_induction_on with
  | refl => exact hm
  | head hstep _ ih => exact hstep.begins ih

theorem derives_nil_of_vanishes (h : g.Vanishes l) : g.Derives (withoutEpsilon l) [] := by
  induction h with
  | nil => exact .refl
  | epsilon _ ih =>
    rw [withoutEpsilon_epsilon]
    exact ih
  | @expand p rest hp _ _ ihr ih =>
    rw [withoutEpsilon_cons (by simp)]
    have hx := derives_expand hp [] (withoutEpsilon rest)
    have hr := ihr.append_right (withoutEpsilon rest)
    exact hx.trans (hr.trans ih)

theorem exists_derives_of_begins (h : g.Begins t l) :
    ∃ rest, g.Derives (withoutEpsilon l) (t :: rest) := by
  induction h with
  | @head rest ht =>
    rw [withoutEpsilon_cons (by rintro rfl; cases ht)]
    exact ⟨withoutEpsilon rest, .refl⟩
  | @expand p rest hp _ ih =>
    obtain ⟨m, hm⟩ := ih
    rw [withoutEpsilon_cons (by simp)]
    have hx := derives_expand hp [] (withoutEpsilon rest)
    exact ⟨m ++ withoutEpsilon rest, hx.trans (hm.append_right _)⟩
  | @skip s rest hs _ ih =>
    obtain ⟨m, hm⟩ := ih
    have hv := (derives_nil_of_vanishes hs).append_right (withoutEpsilon rest)
    rw [← withoutEpsilon_append] at hv
    exact ⟨m, hv.trans hm⟩

/-- Vanishing sequences are those that derive nothing at all. -/
theorem vanishes_iff_derives : g.Vanishes l ↔ g.Derives (withoutEpsilon l) [] := by
  constructor
  · exact derives_nil_of_vanishes
  · intro h
    exact vanishes_withoutEpsilon.mp (h.vanishes .nil)

theorem begins_iff_derives : g.Begins t l ↔
    t.isInput ∧ ∃ rest, g.Derives (withoutEpsilon l) (t :: rest) := by
  constructor
  · intro h
    exact ⟨isInput_of_begins h, exists_derives_of_begins h⟩
  · rintro ⟨ht, rest, h⟩
    exact begins_withoutEpsilon.mp (h.begins (.head ht))

end Grammar

end Predictive
