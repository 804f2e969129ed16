namespace Predictive

/-- One value for each of the given names, in their order. -/
structure Family (names : List String) (α : Type) where
  entries : List (String × α)
  keys : entries.map Prod.fst = names

namespace Family

variable {names : List String} {α : Type} {f : Family names α} {n m : String} {a b : α}

def ofFn (names : List String) (value : String → α) : Family names α :=
  ⟨names.map fun n => (n, value n), by simp [Function.comp_def]⟩

def const (names : List String) (a : α) : Family names α := ofFn names fun _ => a

def get? (f : Family names α) (n : String) : Option α := f.entries.lookup n

def getD (f : Family names α) (n : String) (default : α) : α := (f.get? n).getD default

def setEntry (n : String) (a : α) : List (String × α) → List (String × α)
  | [] => []
  | e :: es => if e.1 = n then (n, a) :: es else e :: setEntry n a es

theorem keys_setEntry (es : List (String × α)) :
    (setEntry n a es).map Prod.fst = es.map Prod.fst := by
  induction es with
  | nil => rfl
  | cons e es ih => grind [setEntry]

/-- Changes the value at a name; a name that is not of the family changes nothing. -/
def set (f : Family names α) (n : String) (a : α) : Family names α :=
  ⟨setEntry n a f.entries, (keys_setEntry _).trans f.keys⟩

theorem lookup_setEntry (es : List (String × α)) :
    (setEntry n a es).lookup m =
      if m = n then (es.lookup n).map fun _ => a else es.lookup m := by
  induction es with
  | nil => simp [setEntry]
  | cons e es ih => grind [setEntry]

theorem get?_set : (f.set n a).get? m = if m = n then (f.get? n).map fun _ => a else f.get? m :=
  lookup_setEntry f.entries

theorem get?_ofFn {value : String → α} :
    (ofFn names value).get? n = if n ∈ names then some (value n) else none := by
  simp only [get?, ofFn]
  induction names with
  | nil => simp
  | cons m ms ih => grind

theorem getD_const (n : String) (a : α) : (const names a).getD n a = a := by
  simp only [getD, const, get?_ofFn]
  split <;> rfl

theorem isSome_get? : (f.get? n).isSome ↔ n ∈ names := by
  have (es : List (String × α)) : (es.lookup n).isSome ↔ n ∈ es.map Prod.fst := by
    induction es with
    | nil => simp
    | cons e es ih => grind
  exact (this f.entries).trans (by rw [f.keys])

theorem get?_eq_none (f : Family names α) (h : n ∉ names) : f.get? n = none := by
  rw [← Option.not_isSome_iff_eq_none, isSome_get?]
  exact h

theorem exists_get? (f : Family names α) (h : n ∈ names) : ∃ v, f.get? n = some v :=
  Option.isSome_iff_exists.1 (isSome_get?.2 h)

theorem getD_of_notMem (h : n ∉ names) : f.getD n a = a := by
  rw [getD, f.get?_eq_none h, Option.getD_none]

theorem getD_set : (f.set n b).getD m a = if m = n ∧ n ∈ names then b else f.getD m a := by
  simp only [getD, get?_set]
  split
  · next h =>
    subst h
    by_cases hm : m ∈ names
    · obtain ⟨v, hv⟩ := f.exists_get? hm
      simp [hv, hm]
    · simp [f.get?_eq_none hm, hm]
  · next h => simp [h]

/-- The sum of the values' weights. -/
def weight (w : α → Nat) (f : Family names α) : Nat :=
  f.entries.foldr (fun e total => w e.2 + total) 0

theorem weight_set_lt {w : α → Nat} (a : α) (hn : n ∈ names) (h : w b < w (f.getD n a)) :
    (f.set n b).weight w < f.weight w := by
  have (es : List (String × α)) (v : α) (hv : es.lookup n = some v) (hw : w b < w v) :
      (setEntry n b es).foldr (fun e total => w e.2 + total) 0 <
        es.foldr (fun e total => w e.2 + total) 0 := by
    induction es with
    | nil => simp at hv
    | cons e es ih =>
      rw [List.lookup_cons] at hv
      unfold setEntry
      split at hv
      · next he =>
        obtain rfl : e.2 = v := by simpa using hv
        simp only [beq_iff_eq] at he
        simp [he, hw]
      · next he =>
        have hne : e.1 ≠ n := by
          simp only [beq_eq_false_iff_ne] at he
          exact he.symm
        simpa [hne] using ih hv
  obtain ⟨v, hv⟩ := f.exists_get? hn
  refine this f.entries v hv ?_
  simpa [getD, hv] using h

end Family

end Predictive
