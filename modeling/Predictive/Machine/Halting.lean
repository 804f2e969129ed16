import Predictive.Machine.Basic

namespace Predictive.Table

variable {g : Grammar} {T : Table g} {t : Symbol} {w s l : List Symbol}

/-- Every run from this stack ends. -/
def Halts (T : Table g) (stack input : List Symbol) : Prop :=
  ∀ position, Acc T.Moves ⟨stack, input, position⟩

theorem halts_of_not_moves
    (h : ∀ position c, ¬ T.Moves c ⟨s, w, position⟩) : T.Halts s w :=
  fun position => .intro _ fun c hc => absurd hc (h position c)

theorem halts_nil : T.Halts s [] := by
  refine halts_of_not_moves fun position c hc => ?_
  cases s <;> cases hc <;> simp_all [action]

theorem halts_empty_stack : T.Halts [] w := by
  refine halts_of_not_moves fun position c hc => ?_
  cases w <;> cases hc <;> simp_all [action]

/-- A token is read whatever is below it on the stack. -/
theorem halts_of_input {a : Symbol} (ha : ∀ n, a ≠ .nonTerminal n) (ih : ∀ s, T.Halts s w) :
    T.Halts (a :: s) (t :: w) := by
  refine fun position => .intro _ fun c hc => ?_
  cases hc with
  | matched _ => exact ih _ _
  | expand h =>
    simp only [action] at h
    split at h <;> simp_all

theorem halts_of_nonTerminal {n : String}
    (h : ∀ e, T.get n t = [e] → T.Halts (e.production.body ++ s) (t :: w)) :
    T.Halts (.nonTerminal n :: s) (t :: w) := by
  refine fun position => .intro _ fun c hc => ?_
  cases hc with
  | matched ha => exact absurd ha decideOn_ne_matched
  | expand ha => exact h _ (decideOn_eq_expand.1 ha) position

theorem production_eq {p : Production} (hp : p ∈ g.productions) (ht : t ∈ g.analyse.predict p)
    {e : Entry} (he : T.get p.left t = [e]) : e.production = p := by
  obtain ⟨id, hid⟩ := List.getElem?_of_mem hp
  have hm : ⟨id, p⟩ ∈ T.get p.left t := T.mem_get.2 ⟨hid, rfl, ht⟩
  rw [he, List.mem_singleton] at hm
  rw [← hm]

/-- Non-terminals of a vanishing right side are followed by what follows its left side. -/
theorem mem_follow_of_vanishes {p : Production} (hp : p ∈ g.productions) (hv : g.Vanishes p.right)
    (ht : t ∈ g.analyse.follow p.left) {n : String} (hn : .nonTerminal n ∈ p.right)
    (hd : n ∈ g.nonTerminals) : t ∈ g.analyse.follow n := by
  obtain ⟨u, v, hr⟩ := List.append_of_mem hn
  rw [hr, Grammar.vanishes_append, Grammar.vanishes_cons] at hv
  exact Analysis.mem_follow hp hr hd (.inr ⟨hv.2.2, ht⟩)

/-- On a symbol that may follow it, a vanishing sequence is expanded to nothing. -/
theorem halts_of_vanishes (h : g.Vanishes l)
    (ht : ∀ n, .nonTerminal n ∈ l → n ∈ g.nonTerminals → t ∈ g.analyse.follow n)
    (hs : T.Halts s (t :: w)) : T.Halts (withoutEpsilon l ++ s) (t :: w) := by
  induction h generalizing s with
  | nil => exact hs
  | epsilon _ ih => exact ih (fun n hn => ht n (.tail _ hn)) hs
  | @expand p rest hp hr _ ihr ih =>
    have htp := ht p.left (.head _) (g.left_declared p hp)
    refine halts_of_nonTerminal fun e he => ?_
    rw [production_eq hp (Analysis.mem_predict_iff.2 (.inr ⟨hr, htp⟩)) he]
    exact ihr (fun n hn hd => mem_follow_of_vanishes hp hr htp hn hd)
      (ih (fun n hn => ht n (.tail _ hn)) hs)

/-- The end of a right side that begins with the lookahead is expanded until the lookahead is
read. -/
theorem halts_of_begins (ih : ∀ s, T.Halts s w) (h : g.Begins t l) {p : Production}
    (hp : p ∈ g.productions) {u : List Symbol} (hl : p.right = u ++ l) :
    T.Halts (withoutEpsilon l ++ s) (t :: w) := by
  induction h generalizing s p u with
  | head ht =>
    rw [withoutEpsilon_cons (by rintro rfl; cases ht)]
    exact halts_of_input (by rintro n rfl; cases ht) ih
  | @expand q rest hq hb ihr =>
    refine halts_of_nonTerminal fun e he => ?_
    rw [production_eq hq (Analysis.mem_predict_iff.2 (.inl hb)) he]
    exact ihr hq (u := []) rfl
  | @skip a rest hv hb ihr =>
    have := halts_of_vanishes (T := T) (w := w) (s := withoutEpsilon rest ++ s) hv
      (fun n hn hd => ?_) (ihr hp (u := u ++ [a]) (by simpa using hl))
    · rwa [← List.append_assoc, ← withoutEpsilon_append] at this
    · obtain rfl := List.mem_singleton.1 hn
      exact Analysis.mem_follow hp hl hd (.inl hb)

theorem halts (T : Table g) (s w : List Symbol) : T.Halts s w := by
  induction w generalizing s with
  | nil => exact halts_nil
  | cons t w ih =>
    induction s with
    | nil => exact halts_empty_stack
    | cons a s ihs =>
      cases a with
      | nonTerminal n =>
        refine halts_of_nonTerminal fun e he => ?_
        obtain ⟨hid, rfl, ht⟩ := T.mem_get.1 (he ▸ List.mem_singleton.2 rfl)
        have hp := List.mem_of_getElem? hid
        obtain hb | ⟨hv, hf⟩ := Analysis.mem_predict_iff.1 ht
        · exact halts_of_begins ih hb hp (u := []) rfl
        · exact halts_of_vanishes hv (fun n hn hd => mem_follow_of_vanishes hp hv hf hn hd) ihs
      | _ => exact halts_of_input (fun n h => Symbol.noConfusion h) ih

/-- A configuration of the parser with this table. -/
structure State (T : Table g) where
  config : Config

instance : WellFoundedRelation (State T) where
  rel a b := T.Moves a.config b.config
  wf := InvImage.wf State.config ⟨fun ⟨s, w, position⟩ => T.halts s w position⟩

end Predictive.Table
