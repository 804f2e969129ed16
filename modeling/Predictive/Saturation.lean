namespace Predictive

/-- A state that visits to items enlarge. A visit that changes the state reports an event and leaves
less room. -/
structure Saturation (ι σ ε : Type) where
  visit : ι → σ → Option (ε × σ)
  room : σ → Nat
  room_lt : ∀ {i s e s'}, visit i s = some (e, s') → room s' < room s

namespace Saturation

variable {ι σ ε : Type} (S : Saturation ι σ ε)

/-- One visit to each item in order. -/
def pass : List ι → σ → List ε × σ
  | [], s => ([], s)
  | i :: is, s =>
    match S.visit i s with
    | none => pass is s
    | some (e, s') =>
      let (es, s'') := pass is s'
      (e :: es, s'')

/-- Events carry the number of their pass, counted from one. -/
structure Outcome (σ ε : Type) where
  state : σ
  events : List (Nat × ε)
  passes : Nat

variable {S} {items : List ι} {s : σ}

theorem room_pass_le : S.room (S.pass items s).2 ≤ S.room s := by
  induction items generalizing s with
  | nil => exact Nat.le_refl _
  | cons i is ih =>
    unfold pass
    split
    · exact ih
    · next h => exact Nat.le_of_lt (Nat.lt_of_le_of_lt ih (S.room_lt h))

theorem room_pass_lt (h : (S.pass items s).1 ≠ []) : S.room (S.pass items s).2 < S.room s := by
  induction items generalizing s with
  | nil => exact absurd rfl h
  | cons i is ih =>
    cases hv : S.visit i s with
    | none =>
      simp only [pass, hv] at h ⊢
      exact ih h
    | some r =>
      simp only [pass, hv]
      exact Nat.lt_of_le_of_lt room_pass_le (S.room_lt hv)

variable (S)

/-- Passes are made until one changes nothing. -/
def runFrom (items : List ι) (number : Nat) (s : σ) : Outcome σ ε :=
  if h : (S.pass items s).1 = [] then ⟨(S.pass items s).2, [], number⟩
  else
    let rest := runFrom items (number + 1) (S.pass items s).2
    { rest with events := (S.pass items s).1.map (number, ·) ++ rest.events }
termination_by S.room s
decreasing_by exact room_pass_lt h

def run (items : List ι) (s : σ) : Outcome σ ε := S.runFrom items 1 s

variable {S}

theorem pass_eq_of_events (h : (S.pass items s).1 = []) :
    (S.pass items s).2 = s ∧ ∀ i ∈ items, S.visit i s = none := by
  induction items with
  | nil => exact ⟨rfl, fun _ h => absurd h List.not_mem_nil⟩
  | cons i is ih =>
    cases hv : S.visit i s with
    | none =>
      simp only [pass, hv] at h ⊢
      exact ⟨(ih h).1, List.forall_mem_cons.2 ⟨hv, (ih h).2⟩⟩
    | some r =>
      simp only [pass, hv] at h
      exact absurd h (List.cons_ne_nil _ _)

/-- At the end no visit changes the state. -/
theorem visit_runFrom {number : Nat} {i : ι} (hi : i ∈ items) :
    S.visit i (S.runFrom items number s).state = none := by
  fun_induction runFrom S items number s with
  | case1 _ _ h =>
    have := pass_eq_of_events h
    simpa only [this.1] using this.2 i hi
  | case2 _ _ _ _ ih => exact ih

theorem visit_run {i : ι} (hi : i ∈ items) : S.visit i (S.run items s).state = none :=
  visit_runFrom hi

/-- What every visit keeps holds at the end. -/
theorem pass_induction {P : σ → Prop} (hs : P s)
    (hP : ∀ {i s e s'}, P s → S.visit i s = some (e, s') → P s') : P (S.pass items s).2 := by
  induction items generalizing s with
  | nil => exact hs
  | cons i is ih =>
    unfold pass
    split
    · exact ih hs
    · next hv => exact ih (hP hs hv)

theorem run_induction {P : σ → Prop} (hs : P s)
    (hP : ∀ {i s e s'}, P s → S.visit i s = some (e, s') → P s') : P (S.run items s).state := by
  have (number : Nat) : P (S.runFrom items number s).state := by
    fun_induction runFrom S items number s with
    | case1 _ _ _ => exact pass_induction hs hP
    | case2 _ _ _ _ ih => exact ih (pass_induction hs hP)
  exact this 1

end Saturation

end Predictive
