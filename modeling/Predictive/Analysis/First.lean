import Predictive.Analysis.Nullable
import Predictive.SymbolSet

namespace Predictive

/-- What a sequence can begin with, and whether it can vanish. -/
structure First where
  symbols : SymbolSet
  nullable : Bool
deriving DecidableEq

/-- The set of a non-terminal has reached a new size. -/
structure Growth where
  name : String
  size : Nat

variable {names : List String}

namespace First

variable (nullable : Family names Bool) (first : Family names SymbolSet)

/-- An input symbol begins with itself; a non-terminal of no rule begins with nothing. -/
def ofSymbol (s : Symbol) : First where
  symbols :=
    match s with
    | .terminal _ | .endOfInput => .ofList [s]
    | .epsilon => ∅
    | .nonTerminal n => first.getD n ∅
  nullable := s.isNullable nullable

/-- The scan goes on behind a symbol as long as that symbol is nullable. -/
def ofSequence : List Symbol → First
  | [] => ⟨∅, true⟩
  | s :: rest =>
    let head := ofSymbol nullable first s
    if head.nullable then
      let tail := ofSequence rest
      ⟨head.symbols ∪ tail.symbols, tail.nullable⟩
    else head

variable {nullable : Family names Bool} {first first' : Family names SymbolSet}
  {s t : Symbol} {l : List Symbol} {u : SymbolSet}

theorem nullable_ofSequence :
    (ofSequence nullable first l).nullable = l.all (·.isNullable nullable) := by
  induction l with
  | nil => rfl
  | cons s l ih =>
    simp only [ofSequence, List.all_cons]
    cases h : s.isNullable nullable <;> simp [ofSymbol, h, ih]

theorem mem_ofSequence_cons : t ∈ (ofSequence nullable first (s :: l)).symbols ↔
    t ∈ (ofSymbol nullable first s).symbols ∨
      s.isNullable nullable ∧ t ∈ (ofSequence nullable first l).symbols := by
  simp only [ofSequence]
  cases h : s.isNullable nullable <;> simp [ofSymbol, h]

theorem mem_ofSymbol : t ∈ (ofSymbol nullable first s).symbols ↔
    s.isInput ∧ t = s ∨ ∃ n, s = .nonTerminal n ∧ t ∈ first.getD n ∅ := by
  cases s <;> simp [ofSymbol, Symbol.isInput]

/-- What a sequence begins with depends on each symbol for itself. -/
theorem mem_ofSequence_mono (h : ∀ n, t ∈ first.getD n ∅ → t ∈ first'.getD n ∅)
    (ht : t ∈ (ofSequence nullable first l).symbols) :
    t ∈ (ofSequence nullable first' l).symbols := by
  induction l with
  | nil => exact ht
  | cons s l ih =>
    rw [mem_ofSequence_cons, mem_ofSymbol] at ht ⊢
    refine ht.imp (Or.imp_right ?_) (And.imp_right ih)
    rintro ⟨n, hs, ht⟩
    exact ⟨n, hs, h n ht⟩

theorem ofSequence_subset (h : ∀ n, first.getD n ∅ ⊆ u) (hl : ∀ s ∈ l, s ∈ u) :
    (ofSequence nullable first l).symbols ⊆ u := by
  induction l with
  | nil => exact SymbolSet.empty_subset u
  | cons s l ih =>
    have ⟨hs, hl⟩ := List.forall_mem_cons.1 hl
    intro t ht
    rw [mem_ofSequence_cons, mem_ofSymbol] at ht
    obtain (⟨-, rfl⟩ | ⟨n, -, ht⟩) | ⟨-, ht⟩ := ht
    · exact hs
    · exact h n t ht
    · exact ih hl t ht

end First

namespace Grammar

variable (g : Grammar)

/-- All symbols that a set of the analysis can hold. -/
def alphabet : SymbolSet := .ofList (.endOfInput :: g.productions.flatMap Production.right)

/-- The symbols that the right sides of a non-terminal begin with. -/
def scan (nullable : Family names Bool) (first : Family names SymbolSet) (name : String) :
    SymbolSet :=
  (g.productionsOf name).foldl
    (fun set p => set ∪ (First.ofSequence nullable first p.right).symbols) ∅

variable {g : Grammar} {n : String} {t : Symbol}

section

variable {nullable : Family names Bool} {first first' : Family names SymbolSet}

theorem mem_alphabet {p : Production} (hp : p ∈ g.productions) {s : Symbol} (hs : s ∈ p.right) :
    s ∈ g.alphabet := by
  rw [alphabet, SymbolSet.mem_ofList]
  exact .tail _ (List.mem_flatMap.2 ⟨p, hp, hs⟩)

theorem mem_scan : t ∈ g.scan nullable first n ↔
    ∃ p ∈ g.productions, p.left = n ∧ t ∈ (First.ofSequence nullable first p.right).symbols := by
  have (ps : List Production) (set : SymbolSet) :
      t ∈ ps.foldl (fun set p => set ∪ (First.ofSequence nullable first p.right).symbols) set ↔
        t ∈ set ∨ ∃ p ∈ ps, t ∈ (First.ofSequence nullable first p.right).symbols := by
    induction ps generalizing set with
    | nil => simp
    | cons p ps ih => simp [ih, or_assoc]
  simp only [scan, this, mem_productionsOf, SymbolSet.notMem_empty, false_or, and_assoc]

theorem mem_scan_mono (h : ∀ n, t ∈ first.getD n ∅ → t ∈ first'.getD n ∅)
    (ht : t ∈ g.scan nullable first n) : t ∈ g.scan nullable first' n := by
  obtain ⟨p, hp, hl, ht⟩ := mem_scan.1 ht
  exact mem_scan.2 ⟨p, hp, hl, First.mem_ofSequence_mono h ht⟩

theorem scan_mono (h : ∀ n, first.getD n ∅ ⊆ first'.getD n ∅) :
    g.scan nullable first n ⊆ g.scan nullable first' n :=
  fun t => mem_scan_mono fun n => h n t

theorem scan_subset_alphabet (h : ∀ n, first.getD n ∅ ⊆ g.alphabet) :
    g.scan nullable first n ⊆ g.alphabet := by
  intro t ht
  obtain ⟨p, hp, -, ht⟩ := mem_scan.1 ht
  exact First.ofSequence_subset h (fun s hs => mem_alphabet hp hs) t ht

theorem declared_of_mem_scan (h : t ∈ g.scan nullable first n) : n ∈ g.nonTerminals := by
  obtain ⟨p, hp, rfl, -⟩ := mem_scan.1 h
  exact g.left_declared p hp

end

/-- The FIRST sets found by now. A further scan never loses a symbol, so a set that scans to the
same size scans to itself. -/
structure FirstSets (g : Grammar) (nullable : Family g.nonTerminals Bool) where
  sets : Family g.nonTerminals SymbolSet
  subset_alphabet : ∀ n, sets.getD n ∅ ⊆ g.alphabet
  subset_scan : ∀ n, sets.getD n ∅ ⊆ g.scan nullable sets n

namespace FirstSets

variable {nullable : Family g.nonTerminals Bool}

def empty (g : Grammar) (nullable : Family g.nonTerminals Bool) : FirstSets g nullable where
  sets := .const _ ∅
  subset_alphabet n := by
    rw [Family.getD_const]
    exact SymbolSet.empty_subset _
  subset_scan n := by
    rw [Family.getD_const]
    exact SymbolSet.empty_subset _

theorem subset_set (f : FirstSets g nullable) (m n : String) :
    f.sets.getD n ∅ ⊆ (f.sets.set m (g.scan nullable f.sets m)).getD n ∅ := by
  rw [Family.getD_set]
  split
  · next h => exact h.1 ▸ f.subset_scan n
  · exact SymbolSet.subset_refl _

def rescan (f : FirstSets g nullable) (name : String) : FirstSets g nullable where
  sets := f.sets.set name (g.scan nullable f.sets name)
  subset_alphabet n := by
    rw [Family.getD_set]
    split
    · exact scan_subset_alphabet f.subset_alphabet
    · exact f.subset_alphabet n
  subset_scan n := by
    refine SymbolSet.subset_trans ?_ (scan_mono (f.subset_set name))
    rw [Family.getD_set]
    split
    · next h => exact h.1 ▸ SymbolSet.subset_refl _
    · exact f.subset_scan n

/-- Replaces the set of a non-terminal when a new scan has another size. -/
def grow (name : String) (f : FirstSets g nullable) : Option (Growth × FirstSets g nullable) :=
  if (f.sets.getD name ∅).size = (g.scan nullable f.sets name).size then none
  else some (⟨name, (g.scan nullable f.sets name).size⟩, f.rescan name)

theorem grow_eq_some {f : FirstSets g nullable} {r : Growth × FirstSets g nullable} :
    f.grow n = some r ↔ (f.sets.getD n ∅).size < (g.scan nullable f.sets n).size ∧
      r = (⟨n, (g.scan nullable f.sets n).size⟩, f.rescan n) := by
  have := SymbolSet.size_le_of_subset (f.subset_scan n)
  simp only [grow, Option.ite_none_left_eq_some, Option.some.injEq, @eq_comm _ r]
  exact and_congr_left fun _ => by omega

theorem grow_eq_none {f : FirstSets g nullable} :
    f.grow n = none ↔ f.sets.getD n ∅ = g.scan nullable f.sets n := by
  simp only [grow, ite_eq_left_iff, reduceCtorEq, imp_false, Classical.not_not]
  exact ⟨SymbolSet.eq_of_subset_of_size (f.subset_scan n), congrArg SymbolSet.size⟩

def growing (g : Grammar) (nullable : Family g.nonTerminals Bool) :
    Saturation String (FirstSets g nullable) Growth where
  visit := grow
  room f := f.sets.weight fun set => g.alphabet.size - set.size
  room_lt {n f _ _} h := by
    obtain ⟨hlt, h⟩ := grow_eq_some.1 h
    obtain ⟨rfl, rfl⟩ := Prod.mk.inj h
    have hle := SymbolSet.size_le_of_subset ((f.rescan n).subset_alphabet n)
    obtain ⟨t, ht⟩ := List.exists_mem_of_length_pos (Nat.zero_lt_of_lt hlt)
    have hn := declared_of_mem_scan ht
    simp only [rescan, Family.getD_set, hn, and_self, if_true] at hle
    refine Family.weight_set_lt ∅ hn ?_
    omega

end FirstSets

def first (g : Grammar) (nullable : Family g.nonTerminals Bool) :
    Saturation.Outcome (FirstSets g nullable) Growth :=
  (FirstSets.growing g nullable).run g.nonTerminals (.empty g nullable)

section

variable {nullable : Family g.nonTerminals Bool}

theorem first_eq_scan (n : String) :
    (g.first nullable).state.sets.getD n ∅ = g.scan nullable (g.first nullable).state.sets n := by
  by_cases hn : n ∈ g.nonTerminals
  · exact FirstSets.grow_eq_none.1
      (Saturation.visit_run (S := FirstSets.growing g nullable) (s := .empty g nullable) hn)
  · rw [Family.getD_of_notMem hn]
    refine SymbolSet.ext fun t => ⟨fun h => absurd h SymbolSet.notMem_empty, fun h => ?_⟩
    exact absurd (declared_of_mem_scan h) hn

theorem begins_of_mem {first : Family g.nonTerminals SymbolSet}
    (h : ∀ n t, t ∈ first.getD n ∅ → g.Begins t [.nonTerminal n]) {l : List Symbol}
    (ht : t ∈ (First.ofSequence g.nullable.state first l).symbols) : g.Begins t l := by
  induction l with
  | nil => exact absurd ht SymbolSet.notMem_empty
  | cons s l ih =>
    rw [First.mem_ofSequence_cons, First.mem_ofSymbol] at ht
    obtain (⟨hs, rfl⟩ | ⟨n, rfl, ht⟩) | ⟨hs, ht⟩ := ht
    · exact .head hs
    · exact (h n t ht).append_right l
    · exact .skip (all_isNullable_iff.1 (by simpa using hs)) (ih ht)

theorem begins_of_first {n : String} (h : t ∈ (g.first g.nullable.state).state.sets.getD n ∅) :
    g.Begins t [.nonTerminal n] := by
  refine Saturation.run_induction (S := FirstSets.growing g g.nullable.state)
    (P := fun f => ∀ n t, t ∈ f.sets.getD n ∅ → g.Begins t [.nonTerminal n]) ?_ ?_ n t h
  · intro n t ht
    exact absurd (Family.getD_const n (∅ : SymbolSet) ▸ ht) SymbolSet.notMem_empty
  · intro name f e f' hf hv n t ht
    obtain ⟨-, h⟩ := FirstSets.grow_eq_some.1 hv
    obtain ⟨rfl, rfl⟩ := Prod.mk.inj h
    simp only [FirstSets.rescan, Family.getD_set] at ht
    split at ht
    · next hn =>
      obtain ⟨p, hp, hl, ht⟩ := mem_scan.1 ht
      rw [hn.1, ← hl]
      exact .expand hp (begins_of_mem hf ht)
    · exact hf n t ht

theorem mem_of_begins {l : List Symbol} (h : g.Begins t l) :
    t ∈ (First.ofSequence g.nullable.state (g.first g.nullable.state).state.sets l).symbols := by
  induction h with
  | head ht =>
    rw [First.mem_ofSequence_cons, First.mem_ofSymbol]
    exact .inl (.inl ⟨ht, rfl⟩)
  | @expand p _ hp _ ih =>
    rw [First.mem_ofSequence_cons, First.mem_ofSymbol]
    refine .inl (.inr ⟨p.left, rfl, ?_⟩)
    rw [first_eq_scan]
    exact mem_scan.2 ⟨p, hp, rfl, ih⟩
  | skip hs _ ih =>
    rw [First.mem_ofSequence_cons]
    exact .inr ⟨by simpa using all_isNullable_iff.2 hs, ih⟩

/-- The sets are exact. -/
theorem mem_first_iff {l : List Symbol} :
    t ∈ (First.ofSequence g.nullable.state (g.first g.nullable.state).state.sets l).symbols ↔
      g.Begins t l :=
  ⟨begins_of_mem fun _ _ => begins_of_first, mem_of_begins⟩

end

end Grammar

end Predictive
