import Mathlib.Data.List.Chain
import Predictive.Proofs.Cells
import Predictive.Proofs.Invariant

namespace Predictive

variable {g : Grammar} {T : Table g} {c : Config}

/-- The second step comes right after the first: its configuration is what the action of the first
makes of that of the first. -/
inductive Step.Leads (T : Table g) : Step → Step → Prop
  | matched {s stack input position action} :
      Leads T ⟨⟨s :: stack, s :: input, position⟩, .matched s⟩ ⟨⟨stack, input, position + 1⟩, action⟩
  | expand {n e stack found input position action} :
      T.get n found = [e] → g.productions[e.id]? = some e.production →
      Leads T ⟨⟨.nonTerminal n :: stack, found :: input, position⟩, .expand e⟩
        ⟨⟨withoutEpsilon e.production.right ++ stack, found :: input, position⟩, action⟩

/-- The reason tells which symbols met and where, and why nothing could be done with them. -/
structure Rejection.Explains (T : Table g) (top found : Symbol) (position : Nat)
    (reason : Rejection) : Prop where
  kind : reason = .unexpectedToken top found position ∨
    (∃ n, reason = .noApplicableProduction n found position) ∨
    ∃ n ids, reason = .ambiguousDecision n found position ids
  unexpected : reason = .unexpectedToken top found position ↔ top.isInput ∧ top ≠ found
  noApplicable (n : String) : reason = .noApplicableProduction n found position ↔
    top = .nonTerminal n ∧ T.get n found = []
  ambiguous (n : String) (ids : List Nat) : reason = .ambiguousDecision n found position ids ↔
    top = .nonTerminal n ∧ 2 ≤ (T.get n found).length ∧ ids = (T.get n found).map Entry.id
  conflict (n : String) (ids : List Nat) : reason = .ambiguousDecision n found position ids →
    ∃ c ∈ T.conflicts, c.nonTerminal = n ∧ c.lookahead = found ∧ c.ids = ids

namespace Config

theorem epsilon_notMem_advance (h : .epsilon ∉ c.stack) : .epsilon ∉ c.advance.stack :=
  fun hm => h (List.mem_of_mem_tail hm)

theorem epsilon_notMem_expand (h : .epsilon ∉ c.stack) (e : Entry) :
    .epsilon ∉ (c.expand e).stack := by
  intro hm
  obtain hm | hm := List.mem_append.mp hm
  · simp [Production.body, withoutEpsilon] at hm
  · exact h (List.mem_of_mem_tail hm)

end Config

namespace Table

theorem leads_of_moves {c' : Config} (h : T.Moves c' c) (a : Action) :
    Step.Leads T ⟨c, T.action c⟩ ⟨c', a⟩ := by
  cases h with
  | matched h =>
    rw [h]
    cases acts_of_action h with
    | matched _ => exact .matched
  | expand h =>
    rw [h]
    cases acts_of_action h with
    | expand he => exact .expand he (production_of_get he).1

theorem head?_steps (T : Table g) (c : Config) :
    (T.traceFrom c).steps.head? = some ⟨c, T.action c⟩ := by
  cases h : T.action c with
  | halt verdict => rw [traceFrom_of_halt h, List.head?_cons]
  | matched s => rw [traceFrom_of_matched h, List.head?_cons]
  | expand e => rw [traceFrom_of_expand h, List.head?_cons]

theorem isChain_steps (T : Table g) (c : Config) :
    (T.traceFrom c).steps.IsChain (Step.Leads T) := by
  induction c using moves_induction (T := T) with
  | halt c verdict h =>
    rw [traceFrom_of_halt h]
    exact .singleton _
  | moves c c' h ih =>
    rw [steps_of_moves h]
    refine ih.cons fun next hnext => ?_
    rw [head?_steps] at hnext
    obtain rfl := Option.some.inj hnext
    exact leads_of_moves h _

theorem explains_unexpected {top found : Symbol} (ht : top.isInput) (hne : top ≠ found)
    (position : Nat) :
    Rejection.Explains T top found position (.unexpectedToken top found position) where
  kind := .inl rfl
  unexpected := iff_of_true rfl ⟨ht, hne⟩
  noApplicable n := by
    refine iff_of_false nofun ?_
    rintro ⟨rfl, -⟩
    cases ht
  ambiguous n ids := by
    refine iff_of_false nofun ?_
    rintro ⟨rfl, -⟩
    cases ht
  conflict n ids := nofun

theorem explains_noApplicable {n : String} {found : Symbol} (h : T.get n found = [])
    (position : Nat) :
    Rejection.Explains T (.nonTerminal n) found position (.noApplicableProduction n found position)
    where
  kind := .inr (.inl ⟨n, rfl⟩)
  unexpected := iff_of_false nofun nofun
  noApplicable m := by
    simp only [Rejection.noApplicableProduction.injEq, Symbol.nonTerminal.injEq, and_true]
    refine ⟨?_, And.left⟩
    rintro rfl
    exact ⟨rfl, h⟩
  ambiguous m ids := by
    refine iff_of_false nofun ?_
    rintro ⟨hm, hlen, -⟩
    cases hm
    simp [h] at hlen
  conflict m ids := nofun

theorem explains_ambiguous {n : String} {found : Symbol} (h : 1 < (T.get n found).length)
    (position : Nat) :
    Rejection.Explains T (.nonTerminal n) found position
      (.ambiguousDecision n found position ((T.get n found).map Entry.id)) where
  kind := .inr (.inr ⟨n, _, rfl⟩)
  unexpected := iff_of_false nofun nofun
  noApplicable m := by
    refine iff_of_false nofun ?_
    rintro ⟨hm, hg⟩
    cases hm
    simp [hg] at h
  ambiguous m ids := by
    constructor
    · intro he
      cases he
      exact ⟨rfl, h, rfl⟩
    · rintro ⟨hm, -, rfl⟩
      cases hm
      rfl
  conflict m ids he := by
    cases he
    obtain ⟨c, hc, rfl, rfl⟩ := exists_conflict_iff.mpr h
    obtain ⟨-, hentries, -⟩ := mem_conflicts_iff.mp hc
    refine ⟨c, hc, rfl, rfl, ?_⟩
    rw [Cell.ids, hentries]

/-- Where the machine rejects, there are symbols on the stack and in the input. -/
theorem explains_of_rejected {total : Nat} {reason : Rejection} (hc : c.Valid g total)
    (he : .epsilon ∉ c.stack) (h : T.action c = .halt (.rejected reason)) :
    ∃ top stack found input, c.stack = top :: stack ∧ c.input = found :: input ∧
      reason.Explains T top found (total - c.input.length) := by
  have hpos : total - c.input.length = c.position := by
    have hread := hc.read
    omega
  rw [hpos]
  obtain ⟨hs, hi⟩ | ⟨hs, hi⟩ := hc.marked
  · cases acts_of_action h <;> simp at hs hi
  · cases acts_of_action h with
    | trailing => cases hs
    | exhausted => cases hi
    | @unexpected top stack found input position htop hne =>
      have ht : top.isInput := by
        cases top with
        | terminal _ | endOfInput => rfl
        | nonTerminal n => exact absurd rfl (htop n)
        | epsilon => exact absurd List.mem_cons_self he
      exact ⟨top, stack, found, input, rfl, rfl, explains_unexpected ht hne position⟩
    | noApplicable hg => exact ⟨_, _, _, _, rfl, rfl, explains_noApplicable hg _⟩
    | ambiguous hg => exact ⟨_, _, _, _, rfl, rfl, explains_ambiguous hg _⟩

/-- A trace begins with the start symbol and all of the input, and each step is what the action of
the one before it leads to. The machine halts in the last step and in no other one, and its verdict
there is that of the trace: it accepts with an empty stack and nothing left to read, or the symbols
on top of the stack and in front of the input explain why it rejects. -/
theorem trace_faithful (T : Table g) (tokens : List String) :
    (T.trace tokens).steps.head?.map Step.config =
      some ⟨[.nonTerminal g.start, .endOfInput], tokens.map .terminal ++ [.endOfInput], 0⟩ ∧
    (T.trace tokens).steps.IsChain (Step.Leads T) ∧
    ∃ earlier last verdict, (T.trace tokens).steps = earlier ++ [⟨last, .halt verdict⟩] ∧
      (∀ s ∈ earlier, ∀ v, s.action ≠ .halt v) ∧ (T.trace tokens).verdict = verdict ∧
      (verdict = .accepted → last.stack = [] ∧ last.input = []) ∧
      ∀ reason, verdict = .rejected reason →
        ∃ top stack found input, last.stack = top :: stack ∧ last.input = found :: input ∧
          reason.Explains T top found (tokens.length + 1 - last.input.length) := by
  refine ⟨?_, T.isChain_steps _, ?_⟩
  · rw [trace, head?_steps]
    rfl
  obtain ⟨earlier, last, verdict, hsteps, hearlier, hv, ⟨hvalid, heps⟩, hlast⟩ :=
    exists_last_step (T := T) (c := initial g tokens)
      (P := fun c => c.Valid g (tokens.length + 1) ∧ .epsilon ∉ c.stack)
      (fun c s hc h => ⟨hc.1.advance h, Config.epsilon_notMem_advance hc.2⟩)
      (fun c e hc h => ⟨hc.1.expand h, Config.epsilon_notMem_expand hc.2 e⟩)
      ⟨valid_initial g tokens, by simp [initial]⟩
  refine ⟨earlier, last, verdict, hsteps, hearlier, hv, ?_, ?_⟩
  · rintro rfl
    cases acts_of_action hlast with
    | accept => exact ⟨rfl, rfl⟩
  · rintro reason rfl
    exact explains_of_rejected hvalid heps hlast

end Table

end Predictive
