import Predictive.Proofs.ViablePrefix

namespace Predictive

variable {g : Grammar} {T : Table g} {c c' d : Config} {p : Nat} {reason : Rejection}

/-- The same action on the same stack, with the same symbols to be read up to the position `p`. -/
structure Step.AgreesUpTo (p : Nat) (s s' : Step) : Prop where
  action : s.action = s'.action
  stack : s.config.stack = s'.config.stack
  position : s.config.position = s'.config.position
  input : s.config.input.take (p + 1 - s.config.position) =
    s'.config.input.take (p + 1 - s'.config.position)

/-- Two lists of steps agree one by one until both have passed the position `p`. -/
inductive Step.Lockstep (p : Nat) : List Step → List Step → Prop
  | beyond {steps steps'} : (∀ s ∈ steps ++ steps', p < s.config.position) →
      Lockstep p steps steps'
  | cons {s s' steps steps'} : s.config.position ≤ p → s.AgreesUpTo p s' → Lockstep p steps steps' →
      Lockstep p (s :: steps) (s' :: steps')

namespace Config

/-- The configurations have the stack in common and what is left of the input up to `p`. -/
inductive SharesUpTo (p : Nat) : Config → Config → Prop
  | intro {stack shared later later' position} : position + shared.length = p + 1 →
      SharesUpTo p ⟨stack, shared ++ later, position⟩ ⟨stack, shared ++ later', position⟩

namespace SharesUpTo

theorem agrees (h : SharesUpTo p c c') (ha : T.action c = T.action c') :
    Step.AgreesUpTo p ⟨c, T.action c⟩ ⟨c', T.action c'⟩ := by
  cases h with
  | @intro stack shared later later' position hp =>
    have hlen : p + 1 - position = shared.length := by omega
    refine ⟨ha, rfl, rfl, ?_⟩
    simp only [hlen, List.take_left]

/-- At a shared position the action is the same, for it does not depend on what comes later. -/
theorem action_eq (h : SharesUpTo p c c') (hp : c.position ≤ p) : T.action c = T.action c' := by
  cases h with
  | @intro stack shared later later' position hlen =>
    cases shared with
    | nil =>
      simp only [List.length_nil] at hlen hp
      omega
    | cons found shared =>
      cases stack with
      | nil => rfl
      | cons top stack => cases top <;> rfl

theorem moves (h : SharesUpTo p c c') (hp : c.position ≤ p) (hm : T.Moves d c) :
    ∃ d', T.Moves d' c' ∧ SharesUpTo p d d' := by
  have ha := h.action_eq (T := T) hp
  cases h with
  | @intro stack shared later later' position hlen =>
    cases hm with
    | matched hs =>
      refine ⟨_, .matched (ha ▸ hs), ?_⟩
      cases shared with
      | nil =>
        simp only [List.length_nil] at hlen hp
        omega
      | cons found shared =>
        have hlater : position + 1 + shared.length = p + 1 := by
          rw [List.length_cons] at hlen
          omega
        exact .intro hlater
    | expand he => exact ⟨_, .expand (ha ▸ he), .intro hlen⟩

end SharesUpTo

end Config

namespace Table

theorem position_le_of_moves (h : T.Moves c' c) : c.position ≤ c'.position := by
  cases h with
  | matched _ => exact Nat.le_succ c.position
  | expand _ => exact Nat.le_refl c.position

theorem position_le_of_mem_steps : ∀ s ∈ (T.traceFrom c).steps, c.position ≤ s.config.position := by
  induction c using moves_induction (T := T) with
  | halt c verdict h =>
    rw [traceFrom_of_halt h]
    simp
  | moves c c' h ih =>
    rw [steps_of_moves h]
    refine List.forall_mem_cons.mpr ⟨Nat.le_refl _, ?_⟩
    intro s hs
    exact Nat.le_trans (position_le_of_moves h) (ih s hs)

theorem position_le_of_rejected (h : (T.traceFrom c).verdict = .rejected reason) :
    c.position ≤ reason.position := by
  induction c using moves_induction (T := T) with
  | halt c verdict ha =>
    rw [traceFrom_of_halt ha] at h
    rw [show verdict = .rejected reason from h] at ha
    exact Nat.le_of_eq (acts_of_action ha).position_eq
  | moves c c' hm ih =>
    rw [(trace_of_moves hm).1] at h
    exact Nat.le_trans (position_le_of_moves hm) (ih h)

theorem lockstep_beyond (h : c.SharesUpTo p c') (hp : p < c.position) :
    Step.Lockstep p (T.traceFrom c).steps (T.traceFrom c').steps := by
  have hp' : p < c'.position := by
    cases h with
    | intro _ => exact hp
  refine .beyond (List.forall_mem_append.mpr ⟨?_, ?_⟩)
  · intro s hs
    exact Nat.lt_of_lt_of_le hp (position_le_of_mem_steps s hs)
  · intro s hs
    exact Nat.lt_of_lt_of_le hp' (position_le_of_mem_steps s hs)

theorem lockstep_of_shares (h : c.SharesUpTo p c') :
    Step.Lockstep p (T.traceFrom c).steps (T.traceFrom c').steps := by
  induction c using moves_induction (T := T) generalizing c' with
  | halt c verdict ha =>
    obtain hp | hp := Nat.lt_or_ge p c.position
    · exact lockstep_beyond h hp
    · have hs := h.agrees (h.action_eq (T := T) hp)
      have ha' : T.action c' = .halt verdict := (h.action_eq hp).symm.trans ha
      rw [ha, ha'] at hs
      rw [traceFrom_of_halt ha, traceFrom_of_halt ha']
      exact .cons hp hs (.beyond nofun)
  | moves c d hm ih =>
    obtain hp | hp := Nat.lt_or_ge p c.position
    · exact lockstep_beyond h hp
    · -- The move may pass `p`; then the rest of both runs is `beyond`.
      have hs := h.agrees (h.action_eq (T := T) hp)
      obtain ⟨d', hm', hd⟩ := h.moves hp hm
      rw [steps_of_moves hm, steps_of_moves hm']
      exact .cons hp hs (ih hd)

/-- A rejection up to `p` is that of the other run as well. -/
theorem rejected_of_shares (h : c.SharesUpTo p c')
    (hr : (T.traceFrom c).verdict = .rejected reason) (hp : reason.position ≤ p) :
    (T.traceFrom c').verdict = .rejected reason := by
  have hc : c.position ≤ p := Nat.le_trans (position_le_of_rejected hr) hp
  induction c using moves_induction (T := T) generalizing c' with
  | halt c verdict ha =>
    rw [traceFrom_of_halt ha] at hr
    rw [traceFrom_of_halt ((h.action_eq hc).symm.trans ha)]
    exact hr
  | moves c d hm ih =>
    obtain ⟨d', hm', hd⟩ := h.moves hc hm
    rw [(trace_of_moves hm).1] at hr
    rw [(trace_of_moves hm').1]
    exact ih hd hr (Nat.le_trans (position_le_of_rejected hr) hp)

theorem shares_initial {u v : List String} (hu : p < u.length)
    (h : u.take (p + 1) = v.take (p + 1)) : (initial g u).SharesUpTo p (initial g v) := by
  have hsplit (w : List String) : w.map Symbol.terminal ++ [.endOfInput] =
      (w.take (p + 1)).map .terminal ++ ((w.drop (p + 1)).map .terminal ++ [.endOfInput]) := by
    rw [← List.append_assoc, ← List.map_append, List.take_append_drop]
  rw [initial, initial, hsplit u, hsplit v, ← h]
  refine .intro ?_
  rw [List.length_map, List.length_take]
  omega

/-- Two runs on inputs that agree up to and with the position `p` take the same actions on the same
stacks until that position is passed, whatever is left to be read behind it. What is rejected there
or before is rejected for the same reason. -/
theorem lookahead_one (T : Table g) (u v : List String) (p : Nat) (hu : p < u.length)
    (h : u.take (p + 1) = v.take (p + 1)) :
    Step.Lockstep p (T.trace u).steps (T.trace v).steps ∧
    ∀ reason, T.validate u = .rejected reason → reason.position ≤ p →
      T.validate v = .rejected reason := by
  have hshare : (initial g u).SharesUpTo p (initial g v) := shares_initial hu h
  refine ⟨lockstep_of_shares hshare, ?_⟩
  intro reason hr hp
  exact rejected_of_shares hshare hr hp

theorem lookahead_one_brackets :
    ["(", "c", "x"].take 2 = ["(", "c", ")", "b"].take 2 ∧
      Step.Lockstep 1 (brackets.table.trace ["(", "c", "x"]).steps
        (brackets.table.trace ["(", "c", ")", "b"]).steps ∧
      brackets.table.validate ["(", "c", ")", "b"] =
        .rejected (.ambiguousDecision "S" (.terminal "c") 1 [1, 2]) := by
  have hv : brackets.table.validate ["(", "c", "x"] =
      .rejected (.ambiguousDecision "S" (.terminal "c") 1 [1, 2]) := by
    apply verdict_of_within (n := 5)
    decide +kernel
  obtain ⟨hlock, hrejected⟩ := lookahead_one brackets.table ["(", "c", "x"] ["(", "c", ")", "b"] 1
    (by decide) rfl
  exact ⟨rfl, hlock, hrejected _ hv (Nat.le_refl 1)⟩

end Table

end Predictive
