import Predictive.Family
import Predictive.Grammar.Derivation
import Predictive.Saturation

namespace Predictive

variable {names : List String}

/-- A non-terminal of no rule is never nullable. -/
def Symbol.isNullable (nullable : Family names Bool) : Symbol → Bool
  | .terminal _ | .endOfInput => false
  | .epsilon => true
  | .nonTerminal n => nullable.getD n false

namespace Grammar

variable (g : Grammar)

def hasNullableAlternative (nullable : Family names Bool) (name : String) : Bool :=
  (g.productionsOf name).any fun p => p.right.all (·.isNullable nullable)

/-- Marks a non-terminal one of whose right sides is nullable by now. -/
def markNullable (name : String) (nullable : Family names Bool) :
    Option (String × Family names Bool) :=
  if !nullable.getD name false && g.hasNullableAlternative nullable name then
    some (name, nullable.set name true)
  else none

variable {g : Grammar}

theorem markNullable_eq_some {name : String} {nullable : Family names Bool}
    {r : String × Family names Bool} :
    g.markNullable name nullable = some r ↔
      (nullable.getD name false = false ∧ g.hasNullableAlternative nullable name) ∧
        r = (name, nullable.set name true) := by
  simp only [markNullable, Option.ite_none_right_eq_some, Option.some.injEq, Bool.and_eq_true,
    Bool.not_eq_true', @eq_comm _ r]

theorem markNullable_eq_none {name : String} {nullable : Family names Bool} :
    g.markNullable name nullable = none ↔
      (g.hasNullableAlternative nullable name → nullable.getD name false) := by
  simp only [markNullable, ite_eq_right_iff, reduceCtorEq, imp_false]
  cases nullable.getD name false <;> simp

theorem hasNullableAlternative_iff {nullable : Family names Bool} {name : String} :
    g.hasNullableAlternative nullable name ↔
      ∃ p ∈ g.productions, p.left = name ∧ p.right.all (·.isNullable nullable) := by
  simp only [hasNullableAlternative, List.any_eq_true, mem_productionsOf, and_assoc]

variable (g)

def nullableMarking : Saturation String (Family g.nonTerminals Bool) String where
  visit := g.markNullable
  room nullable := nullable.weight fun b => if b then 0 else 1
  room_lt h := by
    obtain ⟨⟨hn, ha⟩, h⟩ := markNullable_eq_some.1 h
    obtain ⟨rfl, rfl⟩ := Prod.mk.inj h
    obtain ⟨p, hp, rfl, -⟩ := hasNullableAlternative_iff.1 ha
    exact Family.weight_set_lt false (g.left_declared p hp) (by simp [hn])

def nullable : Saturation.Outcome (Family g.nonTerminals Bool) String :=
  g.nullableMarking.run g.nonTerminals (.const _ false)

variable {g}

theorem vanishes_of_all {nullable : Family names Bool}
    (h : ∀ n, nullable.getD n false → g.Vanishes [.nonTerminal n]) {l : List Symbol}
    (hl : l.all (·.isNullable nullable)) : g.Vanishes l := by
  induction l with
  | nil => exact .nil
  | cons s l ih =>
    rw [List.all_cons, Bool.and_eq_true] at hl
    refine vanishes_cons.2 ⟨?_, ih hl.2⟩
    cases s with
    | terminal _ | endOfInput => exact absurd hl.1 Bool.false_ne_true
    | epsilon => exact .epsilon .nil
    | nonTerminal n => exact h n hl.1

theorem vanishes_of_nullable {n : String} (h : g.nullable.state.getD n false) :
    g.Vanishes [.nonTerminal n] := by
  refine Saturation.run_induction (S := g.nullableMarking)
    (P := fun f => ∀ n, f.getD n false → g.Vanishes [.nonTerminal n]) ?_ ?_ n h
  · intro n hn
    exact absurd ((Family.getD_const n false).symm.trans hn) Bool.false_ne_true
  · intro name f e f' hf hv n hn
    obtain ⟨⟨-, ha⟩, h⟩ := markNullable_eq_some.1 hv
    obtain ⟨rfl, rfl⟩ := Prod.mk.inj h
    rw [Family.getD_set] at hn
    split at hn
    · next hm =>
      obtain ⟨p, hp, hl, hr⟩ := hasNullableAlternative_iff.1 ha
      rw [hm.1, ← hl]
      exact .expand hp (vanishes_of_all hf hr) .nil
    · exact hf n hn

theorem nullable_of_vanishes {l : List Symbol} (h : g.Vanishes l) :
    l.all (·.isNullable g.nullable.state) := by
  induction h with
  | nil => rfl
  | epsilon _ ih => exact ih
  | @expand p rest hp _ _ ihr ih =>
    rw [List.all_cons, ih, Bool.and_true]
    have hv := Saturation.visit_run (S := g.nullableMarking) (s := .const _ false)
      (g.left_declared p hp)
    exact markNullable_eq_none.1 hv (hasNullableAlternative_iff.2 ⟨p, hp, rfl, ihr⟩)

/-- The marks are exact. -/
theorem all_isNullable_iff {l : List Symbol} :
    l.all (·.isNullable g.nullable.state) ↔ g.Vanishes l :=
  ⟨vanishes_of_all fun _ => vanishes_of_nullable, nullable_of_vanishes⟩

end Grammar

end Predictive
