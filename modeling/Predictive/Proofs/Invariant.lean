import Predictive.Proofs.Follow
import Predictive.Proofs.Run

namespace Predictive

/-- The end of the input is the last symbol and only the last. -/
inductive Delimited : List Symbol → Prop
  | last : Delimited [.endOfInput]
  | cons {s l} : s ≠ .endOfInput → Delimited l → Delimited (s :: l)

namespace Delimited

variable {s : Symbol} {l m : List Symbol}

theorem append (hl : .endOfInput ∉ l) (hm : Delimited m) : Delimited (l ++ m) := by
  induction l with
  | nil => exact hm
  | cons s l ih =>
    have hs : s ≠ .endOfInput := fun h => hl (h ▸ List.mem_cons_self)
    exact .cons hs (ih fun h => hl (.tail s h))

theorem tail_of_ne (h : Delimited (s :: l)) (hs : s ≠ .endOfInput) : Delimited l := by
  cases h with
  | last => exact absurd rfl hs
  | cons _ h => exact h

theorem tail_of_end (h : Delimited (.endOfInput :: l)) : l = [] := by
  cases h with
  | last => rfl
  | cons h _ => exact absurd rfl h

theorem exists_front (h : Delimited l) : ∃ front, l = front ++ [.endOfInput] := by
  induction h with
  | last => exact ⟨[], rfl⟩
  | @cons s _ _ _ ih =>
    obtain ⟨front, rfl⟩ := ih
    exact ⟨s :: front, rfl⟩

end Delimited

namespace Config

/-- What holds in every configuration of a run over an input of `total` symbols. -/
structure Valid (g : Grammar) (total : Nat) (c : Config) : Prop where
  marked : c.stack = [] ∧ c.input = [] ∨ Delimited c.stack ∧ Delimited c.input
  read : c.position + c.input.length = total
  symbols : ∀ s ∈ c.input, s.isInput
  followed : g.FollowClosed c.stack

namespace Valid

variable {g : Grammar} {T : Table g} {c : Config} {total : Nat}

theorem advance {s : Symbol} (hc : c.Valid g total) (h : T.action c = .matched s) :
    c.advance.Valid g total := by
  obtain ⟨hmark, hread, hsym, hfollow⟩ := hc
  cases Table.acts_of_action h with
  | @matched _ stack input position hs =>
    refine ⟨?_, ?_, ?_, hfollow.tail⟩
    · obtain ⟨hstack, -⟩ | ⟨hstack, hinput⟩ := hmark
      · cases hstack
      · by_cases he : s = .endOfInput
        · subst he
          exact .inl ⟨hstack.tail_of_end, hinput.tail_of_end⟩
        · exact .inr ⟨hstack.tail_of_ne he, hinput.tail_of_ne he⟩
    · simp only [Config.advance, List.tail_cons, List.length_cons] at hread ⊢
      omega
    · intro t ht
      exact hsym t (.tail s ht)

theorem expand {e : Entry} (hc : c.Valid g total) (h : T.action c = .expand e) :
    (c.expand e).Valid g total := by
  obtain ⟨hmark, hread, hsym, hfollow⟩ := hc
  cases Table.acts_of_action h with
  | @expand n stack found input position _ he =>
    obtain ⟨hid, rfl⟩ := Table.production_of_get he
    have hp := List.mem_of_getElem? hid
    refine ⟨?_, hread, hsym, hfollow.expand hp⟩
    obtain ⟨hstack, -⟩ | ⟨hstack, hinput⟩ := hmark
    · cases hstack
    · have hbody : .endOfInput ∉ e.production.body := fun hm =>
        Grammar.endOfInput_notMem_right hp (List.mem_filter.mp hm).1
      exact .inr ⟨.append hbody (hstack.tail_of_ne (by simp)), hinput⟩

end Valid

end Config

namespace Table

variable {g : Grammar} {T : Table g} {c : Config} {total : Nat}

theorem isInput_of_mem_input {tokens : List String} {s : Symbol}
    (h : s ∈ tokens.map .terminal ++ [.endOfInput]) : s.isInput := by
  obtain h | h := List.mem_append.mp h
  · obtain ⟨token, _, rfl⟩ := List.mem_map.mp h
    rfl
  · obtain rfl := List.mem_singleton.mp h
    rfl

theorem valid_initial (g : Grammar) (tokens : List String) :
    (initial g tokens).Valid g (tokens.length + 1) := by
  refine ⟨.inr ⟨.cons (by simp) .last, .append (by simp) .last⟩, ?_, ?_, g.followClosed_start⟩
  · simp [initial]
  · intro s hs
    exact isInput_of_mem_input hs

/-- The run reaches the configuration in which it gets its verdict with the invariant. -/
theorem exists_valid_halt (T : Table g) (hc : c.Valid g total) :
    ∃ last verdict, last.Valid g total ∧ T.action last = .halt verdict ∧
      (T.traceFrom c).verdict = verdict := by
  apply exists_halt_of_kept (P := fun c => c.Valid g total) _ _ hc
  · intro c s hc h
    exact hc.advance h
  · intro c e hc h
    exact hc.expand h

/-- Every verdict is that of a configuration with the invariant. -/
theorem exists_acts_of_validate {tokens : List String} {verdict : Verdict}
    (h : T.validate tokens = verdict) :
    ∃ last, last.Valid g (tokens.length + 1) ∧ T.Acts last (.halt verdict) := by
  obtain ⟨last, verdict', hlast, ha, hv⟩ := T.exists_valid_halt (valid_initial g tokens)
  obtain rfl : verdict' = verdict := hv.symm.trans h
  exact ⟨last, hlast, acts_of_action ha⟩

/-- The stack is never empty before the input is. -/
theorem validate_ne_trailing (T : Table g) (tokens : List String) (position : Nat) :
    T.validate tokens ≠ .rejected (.trailingInput position) := by
  intro hv
  obtain ⟨last, hlast, ha⟩ := exists_acts_of_validate hv
  cases ha with
  | trailing =>
    obtain ⟨-, hinput⟩ | ⟨hstack, -⟩ := hlast.marked
    · cases hinput
    · cases hstack

end Table

end Predictive
