import Predictive.Proofs.Derivation

namespace Predictive

/-- Replaces the leftmost non-terminal, which has to be the left side of the production. -/
def Production.expandLeftmost (p : Production) : List Symbol → Option (List Symbol)
  | [] => none
  | .nonTerminal n :: l => if n = p.left then some (p.body ++ l) else none
  | s :: l => (p.expandLeftmost l).map (s :: ·)

namespace Production

variable {p : Production} {s : Symbol} {l m : List Symbol}

theorem expandLeftmost_left (p : Production) (l : List Symbol) :
    p.expandLeftmost (.nonTerminal p.left :: l) = some (p.body ++ l) := by
  simp [expandLeftmost]

theorem expandLeftmost_cons (hs : ∀ n, s ≠ .nonTerminal n) :
    p.expandLeftmost (s :: l) = (p.expandLeftmost l).map (s :: ·) := by
  cases s with
  | nonTerminal n => exact absurd rfl (hs n)
  | terminal _ | epsilon | endOfInput => rfl

theorem expandLeftmost_finished (hl : Finished l) : p.expandLeftmost l = none := by
  induction l with
  | nil => rfl
  | cons s l ih =>
    obtain ⟨hs, hl⟩ := finished_cons.mp hl
    rw [expandLeftmost_cons hs, ih hl, Option.map_none]

/-- A finished end takes no part in a leftmost replacement. -/
theorem expandLeftmost_append (hm : Finished m) :
    p.expandLeftmost (l ++ m) = (p.expandLeftmost l).map (· ++ m) := by
  induction l with
  | nil => exact expandLeftmost_finished hm
  | cons s l ih =>
    cases s with
    | nonTerminal n => by_cases hn : n = p.left <;> simp [expandLeftmost, hn]
    | terminal _ | epsilon | endOfInput =>
      rw [List.cons_append, expandLeftmost_cons (by simp), expandLeftmost_cons (by simp), ih,
        Option.map_map, Option.map_map]
      rfl

/-- What is finished stays in front. -/
theorem expandLeftmost_behind (hl : Finished l) :
    p.expandLeftmost (l ++ m) = (p.expandLeftmost m).map (l ++ ·) := by
  induction l with
  | nil => simp
  | cons s l ih =>
    obtain ⟨hs, hl⟩ := finished_cons.mp hl
    rw [List.cons_append, expandLeftmost_cons hs, ih hl, Option.map_map]
    rfl

theorem expandLeftmost_eq_some (h : p.expandLeftmost l = some m) :
    ∃ before after, Finished before ∧ l = before ++ .nonTerminal p.left :: after ∧
      m = before ++ p.body ++ after := by
  induction l generalizing m with
  | nil => cases h
  | cons s l ih =>
    cases s with
    | nonTerminal n =>
      obtain ⟨rfl, hm⟩ := Option.ite_none_right_eq_some.mp h
      obtain rfl := Option.some.inj hm
      exact ⟨[], l, nofun, rfl, rfl⟩
    | terminal _ | epsilon | endOfInput =>
      rw [expandLeftmost_cons (by simp)] at h
      obtain ⟨k, hk, rfl⟩ := Option.map_eq_some_iff.mp h
      obtain ⟨before, after, hb, rfl, rfl⟩ := ih hk
      exact ⟨_ :: before, after, finished_cons.mpr ⟨by simp, hb⟩, rfl, rfl⟩

end Production

namespace Grammar

/-- What the productions with these numbers make of a sequence, each applied to the leftmost
non-terminal of what the ones before it have left. -/
def leftmost (g : Grammar) : List Nat → List Symbol → Option (List Symbol)
  | [], l => some l
  | id :: ids, l => do
    let p ← g.productions[id]?
    let m ← p.expandLeftmost l
    g.leftmost ids m

variable {g : Grammar} {ids : List Nat} {s : Symbol} {l m : List Symbol}

/-- What commutes with one leftmost replacement commutes with all of them. -/
theorem leftmost_map (f : List Symbol → List Symbol)
    (hf : ∀ (p : Production) l, p.expandLeftmost (f l) = (p.expandLeftmost l).map f)
    (ids : List Nat) (l : List Symbol) : g.leftmost ids (f l) = (g.leftmost ids l).map f := by
  induction ids generalizing l with
  | nil => rfl
  | cons id ids ih =>
    simp only [leftmost, Option.bind_eq_bind]
    cases g.productions[id]? with
    | none => rfl
    | some p =>
      rw [Option.bind_some, Option.bind_some, hf]
      cases p.expandLeftmost l with
      | none => rfl
      | some k => exact ih k

theorem leftmost_cons (hs : ∀ n, s ≠ .nonTerminal n) :
    g.leftmost ids (s :: l) = (g.leftmost ids l).map (s :: ·) := by
  apply leftmost_map (s :: ·)
  intro p l
  exact Production.expandLeftmost_cons hs

theorem leftmost_append (hm : Finished m) :
    g.leftmost ids (l ++ m) = (g.leftmost ids l).map (· ++ m) := by
  apply leftmost_map (· ++ m)
  intro p l
  exact Production.expandLeftmost_append hm

theorem leftmost_behind (hl : Finished l) :
    g.leftmost ids (l ++ m) = (g.leftmost ids m).map (l ++ ·) := by
  apply leftmost_map (l ++ ·)
  intro p m
  exact Production.expandLeftmost_behind hl

theorem leftmost_expand {id : Nat} {p : Production} (hp : g.productions[id]? = some p)
    (ids : List Nat) (l : List Symbol) :
    g.leftmost (id :: ids) (.nonTerminal p.left :: l) = g.leftmost ids (p.body ++ l) := by
  simp only [leftmost, hp, Option.bind_eq_bind, Option.bind_some, Production.expandLeftmost_left]

theorem leftmost_ids_append (ids ids' : List Nat) (l : List Symbol) :
    g.leftmost (ids ++ ids') l = (g.leftmost ids l).bind (g.leftmost ids') := by
  induction ids generalizing l with
  | nil => rfl
  | cons id ids ih =>
    simp only [List.cons_append, leftmost, ih, Option.bind_eq_bind, Option.bind_assoc]

theorem leftmost_finished {id : Nat} (hl : Finished l) : g.leftmost (id :: ids) l = none := by
  simp [leftmost, Production.expandLeftmost_finished hl]

theorem leftmost_expand_behind {id : Nat} {p : Production} (hp : g.productions[id]? = some p)
    (ids : List Nat) {before : List Symbol} (hb : Finished before) (after : List Symbol) :
    g.leftmost (id :: ids) (before ++ .nonTerminal p.left :: after) =
      g.leftmost ids (before ++ p.body ++ after) := by
  rw [leftmost_behind hb, leftmost_expand hp, ← leftmost_behind hb, List.append_assoc]

/-- The first number of a leftmost derivation is that of a production of the leftmost
non-terminal. -/
theorem exists_production {id : Nat} {n : String} {before after : List Symbol}
    (hb : Finished before)
    (h : g.leftmost (id :: ids) (before ++ .nonTerminal n :: after) = some m) :
    ∃ p, g.productions[id]? = some p ∧ p.left = n ∧
      g.leftmost ids (before ++ p.body ++ after) = some m := by
  have h' := h
  simp only [leftmost, Option.bind_eq_bind, Option.bind_eq_some_iff] at h'
  obtain ⟨p, hp, k, hk, -⟩ := h'
  rw [Production.expandLeftmost_behind hb] at hk
  obtain ⟨k', hk', -⟩ := Option.map_eq_some_iff.mp hk
  obtain ⟨rfl, -⟩ := Option.ite_none_right_eq_some.mp hk'
  rw [leftmost_expand_behind hp ids hb] at h
  exact ⟨p, hp, rfl, h⟩

theorem derives_of_leftmost (h : g.leftmost ids l = some m) : g.Derives l m := by
  induction ids generalizing l with
  | nil =>
    obtain rfl := Option.some.inj h
    exact .refl
  | cons id ids ih =>
    simp only [leftmost, Option.bind_eq_bind, Option.bind_eq_some_iff] at h
    obtain ⟨p, hp, k, hk, hm⟩ := h
    obtain ⟨before, after, _, rfl, rfl⟩ := Production.expandLeftmost_eq_some hk
    have hx := derives_expand (List.mem_of_getElem? hp) before after
    exact hx.trans (ih hm)

end Grammar

end Predictive
