namespace Predictive

inductive Symbol
  | terminal (name : String)
  | nonTerminal (name : String)
  | epsilon
  | endOfInput
deriving DecidableEq

namespace Symbol

def epsilonName : String := "ε"

def endName : String := "$"

def name : Symbol → String
  | terminal n => n
  | nonTerminal n => n
  | epsilon => epsilonName
  | endOfInput => endName

/-- The symbols that an input consists of. -/
def isInput : Symbol → Bool
  | terminal _ | endOfInput => true
  | nonTerminal _ | epsilon => false

/-- Terminals come first, then non-terminals, the empty word and the end of the input. -/
def rank : Symbol → Nat
  | terminal _ => 0
  | nonTerminal _ => 1
  | epsilon => 2
  | endOfInput => 3

/-- Symbols of one rank are ordered by their names, code point by code point. -/
instance : LT Symbol where
  lt a b := a.rank < b.rank ∨ a.rank = b.rank ∧ a.name < b.name

instance (a b : Symbol) : Decidable (a < b) :=
  inferInstanceAs (Decidable (a.rank < b.rank ∨ a.rank = b.rank ∧ a.name < b.name))

theorem lt_def {a b : Symbol} :
    a < b ↔ a.rank < b.rank ∨ a.rank = b.rank ∧ a.name < b.name := Iff.rfl

theorem eq_of_rank_of_name {a b : Symbol} (hr : a.rank = b.rank) (hn : a.name = b.name) :
    a = b := by
  cases a <;> cases b <;> simp_all [rank, name]

theorem lt_irrefl (a : Symbol) : ¬ a < a := by
  rintro (h | ⟨-, h⟩)
  · exact Nat.lt_irrefl _ h
  · exact String.lt_irrefl _ h

theorem lt_trans {a b c : Symbol} (hab : a < b) (hbc : b < c) : a < c := by
  rw [lt_def] at *
  obtain hab | ⟨hab, nab⟩ := hab <;> obtain hbc | ⟨hbc, nbc⟩ := hbc
  · exact .inl (by omega)
  · exact .inl (by omega)
  · exact .inl (by omega)
  · exact .inr ⟨by omega, String.lt_trans nab nbc⟩

theorem ne_of_lt {a b : Symbol} (h : a < b) : a ≠ b :=
  fun e => lt_irrefl b (e ▸ h)

theorem lt_trichotomy (a b : Symbol) : a < b ∨ a = b ∨ b < a := by
  simp only [lt_def]
  obtain h | h | h := Nat.lt_trichotomy a.rank b.rank
  · exact .inl (.inl h)
  · obtain hn | hn | hn := Std.lt_trichotomy a.name b.name
    · exact .inl (.inr ⟨h, hn⟩)
    · exact .inr (.inl (eq_of_rank_of_name h hn))
    · exact .inr (.inr (.inr ⟨h.symm, hn⟩))
  · exact .inr (.inr (.inl h))

end Symbol

def withoutEpsilon (l : List Symbol) : List Symbol := l.filter (· ≠ .epsilon)

@[simp] theorem withoutEpsilon_epsilon (l : List Symbol) :
    withoutEpsilon (.epsilon :: l) = withoutEpsilon l := by
  simp [withoutEpsilon]

theorem withoutEpsilon_cons {a : Symbol} {l : List Symbol} (h : a ≠ .epsilon) :
    withoutEpsilon (a :: l) = a :: withoutEpsilon l := by
  simp [withoutEpsilon, h]

@[simp] theorem withoutEpsilon_append (l m : List Symbol) :
    withoutEpsilon (l ++ m) = withoutEpsilon l ++ withoutEpsilon m :=
  List.filter_append l m

/-- The names of a sequence, one blank apart. -/
def namesOf (symbols : List Symbol) : String := " ".intercalate (symbols.map Symbol.name)

end Predictive
