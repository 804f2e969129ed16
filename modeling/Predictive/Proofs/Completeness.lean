import Predictive.Proofs.Cells
import Predictive.Proofs.Invariant
import Predictive.Proofs.Soundness

namespace Predictive

/-- The position of a token that nothing fits. -/
def Verdict.mismatch? : Verdict → Option Nat
  | .rejected (.unexpectedToken _ _ position) => some position
  | .rejected (.noApplicableProduction _ _ position) => some position
  | _ => none

namespace Table

variable {g : Grammar} {T : Table g} {c : Config} {total p : Nat} {n : String} {t : Symbol}
  {stack z : List Symbol}

theorem finished_of_isInput (hz : ∀ s ∈ z, s.isInput) : Finished z := by
  intro n hn
  exact absurd (hz _ hn) Bool.false_ne_true

/-- Whatever is derived from a non-terminal in front of the stack, the production that starts it is
in the cell of the first symbol. -/
theorem exists_entry_of_derives (hf : g.FollowClosed (.nonTerminal n :: stack))
    (hz : ∀ s ∈ t :: z, s.isInput) (h : g.Derives (.nonTerminal n :: stack) (t :: z)) :
    ∃ e ∈ T.get n t, g.Derives (e.production.body ++ stack) (t :: z) := by
  obtain ⟨q, hq, rfl, hd⟩ := Grammar.exists_expansion (finished_of_isInput hz) h
  have hin : t.isInput := hz t List.mem_cons_self
  have ht : t ∈ g.analyse.predict q := hf.mem_predict hq (hd.begins (.head hin))
  obtain ⟨e, he, rfl⟩ := exists_entry (T := T) hq ht
  exact ⟨e, he, hd⟩

/-- The symbols up to and with the position `p` begin nothing that the stack derives. -/
def Refutes (g : Grammar) (c : Config) (p : Nat) : Prop :=
  c.position ≤ p ∧ p < c.position + c.input.length ∧
    ∀ z, (∀ s ∈ z, s.isInput) → g.Derives c.stack z → ¬ c.input.take (p + 1 - c.position) <+: z

theorem take_found (found : Symbol) (input : List Symbol) (position : Nat) :
    (found :: input).take (position + 1 - position) = [found] := by
  rw [Nat.add_sub_cancel_left, List.take_succ_cons, List.take_zero]

theorem refutes_of_halt (hc : c.Valid g total) {verdict : Verdict}
    (h : T.action c = .halt verdict) (hp : verdict.mismatch? = some p) : Refutes g c p := by
  cases acts_of_action h with
  | accept | trailing | ambiguous _ => cases hp
  | exhausted =>
    obtain ⟨hstack, -⟩ | ⟨-, hinput⟩ := hc.marked
    · cases hstack
    · cases hinput
  | @unexpected top stack found input position htop hne =>
    obtain rfl := Option.some.inj hp
    refine ⟨Nat.le_refl _, by simp, ?_⟩
    intro z _ hd hpre
    obtain ⟨z', rfl, -⟩ := Grammar.exists_derives_tail htop hd
    rw [take_found, List.cons_prefix_cons] at hpre
    exact hne hpre.1.symm
  | @noApplicable n stack found input position hget =>
    obtain rfl := Option.some.inj hp
    refine ⟨Nat.le_refl _, by simp, ?_⟩
    intro z hz hd hpre
    rw [take_found] at hpre
    obtain ⟨z', rfl⟩ := hpre
    obtain ⟨e, he, -⟩ := exists_entry_of_derives (T := T) hc.followed hz hd
    rw [hget] at he
    cases he

theorem refutes_of_matched {s : Symbol} (h : T.action c = .matched s)
    (ih : Refutes g c.advance p) : Refutes g c p := by
  obtain ⟨hle, hlt, hall⟩ := ih
  cases acts_of_action h with
  | @matched _ stack input position hs =>
    simp only [Config.advance, List.tail_cons] at hle hlt hall
    refine ⟨by simp only; omega, by simp only [List.length_cons]; omega, ?_⟩
    intro z hz hd hpre
    obtain ⟨z', rfl, hd'⟩ := Grammar.exists_derives_tail hs hd
    have hz' : ∀ t ∈ z', t.isInput := fun t ht => hz t (.tail s ht)
    apply hall z' hz' hd'
    have hk : p + 1 - position = (p + 1 - (position + 1)) + 1 := by omega
    simp only [hk, List.take_succ_cons, List.cons_prefix_cons] at hpre
    exact hpre.2

theorem refutes_of_expand (hc : c.Valid g total) {e : Entry} (h : T.action c = .expand e)
    (ih : Refutes g (c.expand e) p) : Refutes g c p := by
  obtain ⟨hle, hlt, hall⟩ := ih
  cases acts_of_action h with
  | @expand n stack found input position _ he =>
    refine ⟨hle, hlt, ?_⟩
    intro z hz hd hpre
    have hk : p + 1 - position = (p - position) + 1 := by
      have hle' : position ≤ p := hle
      omega
    simp only [hk, List.take_succ_cons] at hpre
    cases z with
    | nil => exact absurd (List.prefix_nil.mp hpre) (List.cons_ne_nil _ _)
    | cons t z =>
      obtain rfl : found = t := (List.cons_prefix_cons.mp hpre).1
      obtain ⟨e', he', hd'⟩ := exists_entry_of_derives (T := T) hc.followed hz hd
      rw [he, List.mem_singleton] at he'
      subst he'
      apply hall (found :: z) hz hd'
      simp only [Config.expand, hk, List.take_succ_cons]
      exact hpre

theorem refutes (T : Table g) (hc : c.Valid g total)
    (hp : (T.traceFrom c).verdict.mismatch? = some p) : Refutes g c p := by
  induction c using run_induction (T := T) with
  | halt c verdict h =>
    rw [traceFrom_of_halt h] at hp
    exact refutes_of_halt hc h hp
  | matched c s h ih =>
    rw [(trace_of_moves (.matched h)).1] at hp
    exact refutes_of_matched h (ih (hc.advance h) hp)
  | expand c e h ih =>
    rw [(trace_of_moves (.expand h)).1] at hp
    exact refutes_of_expand hc h (ih (hc.expand h) hp)

/-- A mismatch excludes every sentence that agrees with the input up to its position. -/
theorem refutes_initial {tokens : List String} (hp : (T.validate tokens).mismatch? = some p) :
    p ≤ tokens.length ∧ ∀ x, g.Sentence x →
      ¬ (initial g tokens).input.take (p + 1) <+: (initial g x).input := by
  obtain ⟨-, hlt, hall⟩ := T.refutes (valid_initial g tokens) hp
  constructor
  · simp only [initial, List.length_append, List.length_map, List.length_singleton] at hlt
    omega
  · intro x hx
    apply hall
    · intro s hs
      exact isInput_of_mem_input hs
    · exact hx.append_right [.endOfInput]

theorem not_sentence_of_mismatch {tokens : List String}
    (hp : (T.validate tokens).mismatch? = some p) : ¬ g.Sentence tokens := by
  intro hs
  apply (refutes_initial hp).2 tokens hs
  exact List.take_prefix _ _

theorem not_prefix_of_mismatch {tokens x : List String}
    (hp : (T.validate tokens).mismatch? = some p) (hlt : p < tokens.length) (hx : g.Sentence x) :
    ¬ tokens.take (p + 1) <+: x := by
  intro hpre
  apply (refutes_initial hp).2 x hx
  have hlen : p + 1 ≤ (tokens.map Symbol.terminal).length := by
    rw [List.length_map]
    omega
  simp only [initial]
  rw [List.take_append_of_le_length hlen, ← List.map_take]
  exact (hpre.map _).trans (List.prefix_append _ _)

/-- A sentence is accepted, or a cell with several productions stops the run. -/
theorem accepted_or_ambiguous {tokens : List String} (hs : g.Sentence tokens) :
    T.validate tokens = .accepted ∨ ∃ n found position ids,
      T.validate tokens = .rejected (.ambiguousDecision n found position ids) := by
  cases hv : T.validate tokens with
  | accepted => exact .inl rfl
  | rejected reason =>
    cases reason with
    | unexpectedToken expected found position =>
      have hp : (T.validate tokens).mismatch? = some position := by rw [hv]; rfl
      exact absurd hs (not_sentence_of_mismatch hp)
    | noApplicableProduction n found position =>
      have hp : (T.validate tokens).mismatch? = some position := by rw [hv]; rfl
      exact absurd hs (not_sentence_of_mismatch hp)
    | ambiguousDecision n found position ids => exact .inr ⟨n, found, position, ids, rfl⟩
    | trailingInput position => exact absurd hv (T.validate_ne_trailing tokens position)

theorem validate_ne_ambiguous (h : T.isLL1) (tokens : List String) (n : String) (found : Symbol)
    (position : Nat) (ids : List Nat) :
    T.validate tokens ≠ .rejected (.ambiguousDecision n found position ids) := by
  intro hv
  obtain ⟨last, -, ha⟩ := exists_acts_of_validate hv
  cases ha with
  | ambiguous hlen => exact absurd (length_get_le h _ _) (Nat.not_le_of_lt hlen)

theorem accepted_iff_sentence (h : T.isLL1) {tokens : List String} :
    T.validate tokens = .accepted ↔ g.Sentence tokens := by
  constructor
  · exact sentence_of_accepted
  · intro hs
    obtain ha | ⟨n, found, position, ids, ha⟩ := accepted_or_ambiguous (T := T) hs
    · exact ha
    · exact absurd ha (validate_ne_ambiguous h tokens n found position ids)

/-- Errors are seen at once: where the run stops with a mismatch, no sentence begins with the
tokens read so far and the one it stops at, and at the end of the input the tokens are no sentence.
So a sentence is accepted unless a cell holds several productions, and an LL(1) table accepts
exactly the sentences. -/
theorem validate_complete (T : Table g) (tokens : List String) :
    (∀ expected found n p,
      T.validate tokens = .rejected (.unexpectedToken expected found p) ∨
        T.validate tokens = .rejected (.noApplicableProduction n found p) →
      p ≤ tokens.length ∧
      (p < tokens.length → ∀ x, g.Sentence x → ¬ tokens.take (p + 1) <+: x) ∧
      (p = tokens.length → ¬ g.Sentence tokens)) ∧
    (g.Sentence tokens → T.validate tokens = .accepted ∨ ∃ n found position ids,
      T.validate tokens = .rejected (.ambiguousDecision n found position ids)) ∧
    (T.isLL1 → (T.validate tokens = .accepted ↔ g.Sentence tokens)) := by
  refine ⟨?_, accepted_or_ambiguous, fun h => accepted_iff_sentence h⟩
  intro expected found n p hv
  have hp : (T.validate tokens).mismatch? = some p := by
    obtain hv | hv := hv
    · rw [hv]
      rfl
    · rw [hv]
      rfl
  refine ⟨(refutes_initial hp).1, ?_, ?_⟩
  · intro hlt x hx
    exact not_prefix_of_mismatch hp hlt hx
  · intro _
    exact not_sentence_of_mismatch hp

end Table

end Predictive
