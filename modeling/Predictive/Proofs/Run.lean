import Mathlib.Logic.Function.Iterate
import Predictive.Machine.Run

namespace Predictive.Table

variable {g : Grammar} {T : Table g} {c : Config} {a : Action}

/-- All that one action can be, with the configurations in which it is taken. -/
inductive Acts (T : Table g) : Config → Action → Prop
  | accept {position} : Acts T ⟨[], [], position⟩ (.halt .accepted)
  | trailing {found input position} :
      Acts T ⟨[], found :: input, position⟩ (.halt (.rejected (.trailingInput position)))
  | exhausted {top stack position} :
      Acts T ⟨top :: stack, [], position⟩
        (.halt (.rejected (.unexpectedToken top .endOfInput position)))
  | matched {s stack input position} : (∀ n, s ≠ .nonTerminal n) →
      Acts T ⟨s :: stack, s :: input, position⟩ (.matched s)
  | unexpected {top stack found input position} : (∀ n, top ≠ .nonTerminal n) → top ≠ found →
      Acts T ⟨top :: stack, found :: input, position⟩
        (.halt (.rejected (.unexpectedToken top found position)))
  | expand {n stack found input position e} : T.get n found = [e] →
      Acts T ⟨.nonTerminal n :: stack, found :: input, position⟩ (.expand e)
  | noApplicable {n stack found input position} : T.get n found = [] →
      Acts T ⟨.nonTerminal n :: stack, found :: input, position⟩
        (.halt (.rejected (.noApplicableProduction n found position)))
  | ambiguous {n stack found input position} : 1 < (T.get n found).length →
      Acts T ⟨.nonTerminal n :: stack, found :: input, position⟩
        (.halt (.rejected (.ambiguousDecision n found position ((T.get n found).map Entry.id))))

theorem acts_decideOn (n : String) (stack : List Symbol) (found : Symbol) (input : List Symbol)
    (position : Nat) :
    T.Acts ⟨.nonTerminal n :: stack, found :: input, position⟩ (T.decideOn n found position) := by
  unfold decideOn
  split
  · next h => exact .noApplicable h
  · next h => exact .expand h
  · next h0 h1 =>
    refine .ambiguous ?_
    cases hg : T.get n found with
    | nil => exact absurd hg h0
    | cons e es =>
      cases es with
      | nil => exact absurd hg (h1 e)
      | cons f es => simp

theorem acts_compare {top found : Symbol} (htop : ∀ n, top ≠ .nonTerminal n)
    (stack input : List Symbol) (position : Nat) :
    T.Acts ⟨top :: stack, found :: input, position⟩
      (if top = found then .matched found
        else .halt (.rejected (.unexpectedToken top found position))) := by
  by_cases h : top = found
  · subst h
    rw [if_pos rfl]
    exact .matched htop
  · rw [if_neg h]
    exact .unexpected htop h

theorem acts_action (T : Table g) (c : Config) : T.Acts c (T.action c) := by
  obtain ⟨stack, input, position⟩ := c
  cases stack with
  | nil =>
    cases input with
    | nil => exact .accept
    | cons found input => exact .trailing
  | cons top stack =>
    cases input with
    | nil => cases top <;> exact .exhausted
    | cons found input =>
      cases top with
      | nonTerminal n => exact acts_decideOn n stack found input position
      | terminal _ | epsilon | endOfInput => exact acts_compare (by simp) stack input position

/-- A cell of one entry holds a production of its row. -/
theorem production_of_get {n : String} {t : Symbol} {e : Entry} (h : T.get n t = [e]) :
    g.productions[e.id]? = some e.production ∧ e.production.left = n := by
  have he : e ∈ T.get n t := by
    rw [h]
    exact List.mem_singleton_self e
  obtain ⟨hid, hn, -⟩ := T.mem_get.mp he
  exact ⟨hid, hn⟩

theorem acts_of_action (h : T.action c = a) : T.Acts c a := h ▸ acts_action T c

theorem production_of_expand {e : Entry} (h : T.action c = .expand e) :
    g.productions[e.id]? = some e.production := by
  cases acts_of_action h with
  | expand hget => exact (production_of_get hget).1

theorem action_compare {top : Symbol} (htop : ∀ n, top ≠ .nonTerminal n) (found : Symbol)
    (stack input : List Symbol) (position : Nat) :
    T.action ⟨top :: stack, found :: input, position⟩ =
      if top = found then .matched found
      else .halt (.rejected (.unexpectedToken top found position)) := by
  cases top with
  | nonTerminal n => exact absurd rfl (htop n)
  | terminal _ | epsilon | endOfInput => rfl

theorem action_of_acts (h : T.Acts c a) : T.action c = a := by
  cases h with
  | accept | trailing => rfl
  | @exhausted top => cases top <;> rfl
  | matched hs => rw [action_compare hs, if_pos rfl]
  | unexpected htop hne => rw [action_compare htop, if_neg hne]
  | expand h => exact decideOn_eq_expand.mpr h
  | noApplicable h => simp only [action, decideOn, h]
  | ambiguous h =>
    simp only [action, decideOn]
    split <;> simp_all

/-- What holds where the machine stops and is handed back over every move holds everywhere. -/
theorem run_induction {P : Config → Prop} (halt : ∀ c verdict, T.action c = .halt verdict → P c)
    (matched : ∀ c s, T.action c = .matched s → P c.advance → P c)
    (expand : ∀ c e, T.action c = .expand e → P (c.expand e) → P c) (c : Config) : P c := by
  have h : Acc T.Moves c := T.halts c.stack c.input c.position
  induction h with
  | intro c _ ih =>
    cases h : T.action c with
    | halt verdict => exact halt c verdict h
    | matched s => exact matched c s h (ih _ (.matched h))
    | expand e => exact expand c e h (ih _ (.expand h))

/-- The configuration that comes next, unless the machine stops. -/
def next? (T : Table g) (c : Config) : Option Config :=
  match T.action c with
  | .halt _ => none
  | .matched _ => some c.advance
  | .expand e => some (c.expand e)

theorem next?_of_moves {c' : Config} (h : T.Moves c' c) : T.next? c = some c' := by
  cases h with
  | matched h => simp only [next?, h]
  | expand h => simp only [next?, h]

/-- Finitely many moves lead to a configuration where the machine stops, with the verdict and after
the number of steps that the trace tells. -/
def Stops (T : Table g) (c : Config) : Prop :=
  ∃ n last verdict, (fun o : Option Config => o.bind T.next?)^[n] (some c) = some last ∧
    T.action last = .halt verdict ∧ (T.traceFrom c).verdict = verdict ∧
    (T.traceFrom c).steps.length = n + 1

theorem trace_of_moves {c' : Config} (h : T.Moves c' c) :
    (T.traceFrom c).verdict = (T.traceFrom c').verdict ∧
      (T.traceFrom c).steps.length = (T.traceFrom c').steps.length + 1 := by
  cases h with
  | matched h =>
    rw [traceFrom_of_matched h]
    exact ⟨rfl, rfl⟩
  | expand h =>
    rw [traceFrom_of_expand h]
    exact ⟨rfl, rfl⟩

theorem steps_of_moves {c' : Config} (h : T.Moves c' c) :
    (T.traceFrom c).steps = ⟨c, T.action c⟩ :: (T.traceFrom c').steps := by
  cases h with
  | matched h => rw [traceFrom_of_matched h, h]
  | expand h => rw [traceFrom_of_expand h, h]

theorem not_halt_of_moves {c' : Config} (h : T.Moves c' c) (verdict : Verdict) :
    T.action c ≠ .halt verdict := by
  intro hstop
  cases h with
  | matched h => cases h.symm.trans hstop
  | expand h => cases h.symm.trans hstop

theorem moves_induction {P : Config → Prop} (halt : ∀ c verdict, T.action c = .halt verdict → P c)
    (moves : ∀ c c', T.Moves c' c → P c' → P c) (c : Config) : P c := by
  induction c using run_induction (T := T) with
  | halt c verdict h => exact halt c verdict h
  | matched c s h ih => exact moves c _ (.matched h) ih
  | expand c e h ih => exact moves c _ (.expand h) ih

/-- What every move keeps holds in every step, and the machine takes the action of the step. -/
theorem steps_of_kept {P : Config → Prop} (moves : ∀ c c', P c → T.Moves c' c → P c') (hc : P c) :
    ∀ s ∈ (T.traceFrom c).steps, P s.config ∧ s.action = T.action s.config := by
  induction c using moves_induction (T := T) with
  | halt c verdict h =>
    rw [traceFrom_of_halt h]
    simpa [h] using hc
  | moves c c' h ih =>
    rw [steps_of_moves h]
    exact List.forall_mem_cons.mpr ⟨⟨hc, rfl⟩, ih (moves c c' hc h)⟩

/-- A run halts in its last step and in no other one, and what every move keeps holds there. -/
theorem exists_last_step {P : Config → Prop}
    (matched : ∀ c s, P c → T.action c = .matched s → P c.advance)
    (expand : ∀ c e, P c → T.action c = .expand e → P (c.expand e)) (hc : P c) :
    ∃ earlier last verdict, (T.traceFrom c).steps = earlier ++ [⟨last, .halt verdict⟩] ∧
      (∀ s ∈ earlier, ∀ v, s.action ≠ .halt v) ∧ (T.traceFrom c).verdict = verdict ∧
      P last ∧ T.action last = .halt verdict := by
  have kept : ∀ c c', P c → T.Moves c' c → P c' := by
    rintro c _ hc (h | h)
    · exact matched c _ hc h
    · exact expand c _ hc h
  induction c using moves_induction (T := T) with
  | halt c verdict h =>
    refine ⟨[], c, verdict, ?_, nofun, ?_, hc, h⟩
    · rw [traceFrom_of_halt h, List.nil_append]
    · rw [traceFrom_of_halt h]
  | moves c c' h ih =>
    obtain ⟨earlier, last, verdict, hsteps, hearlier, hv, hlast⟩ := ih (kept c c' hc h)
    refine ⟨⟨c, T.action c⟩ :: earlier, last, verdict, ?_, ?_, ?_, hlast⟩
    · rw [steps_of_moves h, hsteps, List.cons_append]
    · exact List.forall_mem_cons.mpr ⟨not_halt_of_moves h, hearlier⟩
    · rw [(trace_of_moves h).1, hv]

/-- What every move keeps holds of the configuration in which the run gets its verdict. -/
theorem exists_halt_of_kept {P : Config → Prop}
    (matched : ∀ c s, P c → T.action c = .matched s → P c.advance)
    (expand : ∀ c e, P c → T.action c = .expand e → P (c.expand e)) (hc : P c) :
    ∃ last verdict, P last ∧ T.action last = .halt verdict ∧ (T.traceFrom c).verdict = verdict := by
  obtain ⟨-, last, verdict, -, -, hv, hlast, ha⟩ := exists_last_step matched expand hc
  exact ⟨last, verdict, hlast, ha, hv⟩

theorem stops_of_halt {verdict : Verdict} (h : T.action c = .halt verdict) : T.Stops c := by
  refine ⟨0, c, verdict, rfl, h, ?_, ?_⟩
  · rw [traceFrom_of_halt h]
  · rw [traceFrom_of_halt h]
    rfl

theorem stops_of_moves {c' : Config} (h : T.Moves c' c) (hs : T.Stops c') : T.Stops c := by
  obtain ⟨n, last, verdict, hn, hlast, hv, hl⟩ := hs
  obtain ⟨hverdict, hsteps⟩ := trace_of_moves h
  refine ⟨n + 1, last, verdict, ?_, hlast, hverdict.trans hv, by omega⟩
  rw [Function.iterate_succ_apply, Option.bind_some, next?_of_moves h]
  exact hn

theorem stops (T : Table g) (c : Config) : T.Stops c := by
  induction c using moves_induction (T := T) with
  | halt c verdict h => exact stops_of_halt h
  | moves c c' h ih => exact stops_of_moves h ih

theorem initial_congr {g' : Grammar} (h : g.start = g'.start) (tokens : List String) :
    initial g tokens = initial g' tokens := by
  rw [initial, h]
  rfl

/-- The verdict of a run of at most so many steps, for closed inputs. -/
def verdictWithin (T : Table g) : Nat → Config → Option Verdict
  | 0, _ => none
  | n + 1, c =>
    match T.action c with
    | .halt verdict => some verdict
    | .matched _ => T.verdictWithin n c.advance
    | .expand e => T.verdictWithin n (c.expand e)

theorem verdict_of_within {n : Nat} {verdict : Verdict}
    (h : T.verdictWithin n c = some verdict) : (T.traceFrom c).verdict = verdict := by
  induction n generalizing c with
  | zero => cases h
  | succ n ih =>
    cases ha : T.action c with
    | halt v =>
      simp only [verdictWithin, ha] at h
      rw [traceFrom_of_halt ha]
      exact Option.some.inj h
    | matched s =>
      simp only [verdictWithin, ha] at h
      exact (trace_of_moves (.matched ha)).1.trans (ih h)
    | expand e =>
      simp only [verdictWithin, ha] at h
      exact (trace_of_moves (.expand ha)).1.trans (ih h)

/-- A run cannot go on for ever. -/
theorem exists_not_moves (T : Table g) (run : Nat → Config) :
    ∃ n, ¬ T.Moves (run (n + 1)) (run n) := by
  by_contra h
  simp only [not_exists, Classical.not_not] at h
  have hno (c : Config) : ∀ k, run k ≠ c := by
    have hc : Acc T.Moves c := T.halts c.stack c.input c.position
    induction hc with
    | intro c _ ih =>
      rintro k rfl
      exact ih (run (k + 1)) (h k) (k + 1) rfl
  exact hno (run 0) 0 rfl

/-- On any tokens the machine stops after finitely many moves, however the grammar recurses, and
that is the run whose verdict and steps are given back; no sequence of moves is endless. -/
theorem run_finite (T : Table g) (tokens : List String) :
    (∃ n last verdict,
      (fun o : Option Config => o.bind T.next?)^[n] (some (initial g tokens)) = some last ∧
      T.action last = .halt verdict ∧ T.validate tokens = verdict ∧
      (T.trace tokens).steps.length = n + 1) ∧
    ∀ run : Nat → Config, ∃ n, ¬ T.Moves (run (n + 1)) (run n) := by
  constructor
  · exact T.stops (initial g tokens)
  · exact T.exists_not_moves

end Predictive.Table
