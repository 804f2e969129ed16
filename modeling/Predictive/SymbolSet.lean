import Predictive.Symbol

namespace Predictive

/-- A finite set of symbols, kept as its strictly ascending list. -/
structure SymbolSet where
  toList : List Symbol
  sorted : toList.Pairwise (· < ·)
deriving DecidableEq

namespace SymbolSet

variable {s t u : SymbolSet} {a b : Symbol}

instance : Membership Symbol SymbolSet where
  mem s a := a ∈ s.toList

instance (a : Symbol) (s : SymbolSet) : Decidable (a ∈ s) :=
  inferInstanceAs (Decidable (a ∈ s.toList))

instance : EmptyCollection SymbolSet where
  emptyCollection := ⟨[], .nil⟩

instance : HasSubset SymbolSet where
  Subset s t := ∀ a, a ∈ s → a ∈ t

def size (s : SymbolSet) : Nat := s.toList.length

@[simp] theorem mem_toList : a ∈ s.toList ↔ a ∈ s := Iff.rfl

@[simp] theorem notMem_empty : a ∉ (∅ : SymbolSet) := List.not_mem_nil

theorem subset_refl (s : SymbolSet) : s ⊆ s := fun _ h => h

theorem subset_trans (hst : s ⊆ t) (htu : t ⊆ u) : s ⊆ u := fun a h => htu a (hst a h)

theorem empty_subset (s : SymbolSet) : ∅ ⊆ s := fun _ h => absurd h notMem_empty

def insertSorted (a : Symbol) : List Symbol → List Symbol
  | [] => [a]
  | b :: l => if a < b then a :: b :: l else if a = b then b :: l else b :: insertSorted a l

theorem mem_insertSorted {x : Symbol} {l : List Symbol} :
    x ∈ insertSorted a l ↔ x = a ∨ x ∈ l := by
  induction l with
  | nil => simp [insertSorted]
  | cons b l ih => grind [insertSorted]

theorem sorted_insertSorted {l : List Symbol} (h : l.Pairwise (· < ·)) :
    (insertSorted a l).Pairwise (· < ·) := by
  induction l with
  | nil => simp [insertSorted]
  | cons b l ih =>
    have ⟨hb, hl⟩ := List.pairwise_cons.1 h
    unfold insertSorted
    split
    · next hab =>
      refine List.pairwise_cons.2 ⟨fun x hx => ?_, h⟩
      obtain rfl | hx := List.mem_cons.1 hx
      · exact hab
      · exact Symbol.lt_trans hab (hb x hx)
    · split
      · exact h
      · next hab hne =>
        refine List.pairwise_cons.2 ⟨fun x hx => ?_, ih hl⟩
        obtain rfl | hx := mem_insertSorted.1 hx
        · obtain h' | h' | h' := Symbol.lt_trichotomy x b
          · exact absurd h' hab
          · exact absurd h' hne
          · exact h'
        · exact hb x hx

def insert (s : SymbolSet) (a : Symbol) : SymbolSet :=
  ⟨insertSorted a s.toList, sorted_insertSorted s.sorted⟩

@[simp] theorem mem_insert : b ∈ s.insert a ↔ b = a ∨ b ∈ s := mem_insertSorted

def ofList (l : List Symbol) : SymbolSet := l.foldr (fun a s => s.insert a) ∅

@[simp] theorem mem_ofList {l : List Symbol} : a ∈ ofList l ↔ a ∈ l := by
  induction l with
  | nil => simp [ofList]
  | cons b l ih =>
    rw [show ofList (b :: l) = (ofList l).insert b from rfl, mem_insert, List.mem_cons, ih]

def union (s t : SymbolSet) : SymbolSet := t.toList.foldr (fun a u => u.insert a) s

instance : Union SymbolSet where
  union := union

@[simp] theorem mem_union : a ∈ s ∪ t ↔ a ∈ s ∨ a ∈ t := by
  change a ∈ t.toList.foldr (fun a u => u.insert a) s ↔ a ∈ s ∨ a ∈ t.toList
  induction t.toList with
  | nil => simp
  | cons b l ih => rw [List.foldr_cons, mem_insert, ih, List.mem_cons, or_left_comm]

theorem subset_union_left (s t : SymbolSet) : s ⊆ s ∪ t := fun _ h => mem_union.2 (.inl h)

theorem union_subset (hs : s ⊆ u) (ht : t ⊆ u) : s ∪ t ⊆ u :=
  fun a h => (mem_union.1 h).elim (hs a) (ht a)

theorem sublist_of_subset {l m : List Symbol} (hl : l.Pairwise (· < ·)) (hm : m.Pairwise (· < ·))
    (h : ∀ a ∈ l, a ∈ m) : l.Sublist m := by
  induction m generalizing l with
  | nil =>
    obtain rfl := List.eq_nil_iff_forall_not_mem.2 fun a ha => List.not_mem_nil (h a ha)
    exact .slnil
  | cons y m ih =>
    cases l with
    | nil => exact List.nil_sublist _
    | cons x l =>
      have ⟨hx, hl'⟩ := List.pairwise_cons.1 hl
      have ⟨hy, hm'⟩ := List.pairwise_cons.1 hm
      by_cases e : x = y
      · subst e
        refine .cons_cons x (ih hl' hm' fun a ha => ?_)
        exact (List.mem_cons.1 (h a (.tail _ ha))).resolve_left (Symbol.ne_of_lt (hx a ha)).symm
      · have hyx : y < x := hy x ((List.mem_cons.1 (h x (.head _))).resolve_left e)
        refine .cons y (ih hl hm' fun a ha => (List.mem_cons.1 (h a ha)).resolve_left ?_)
        obtain rfl | ha' := List.mem_cons.1 ha
        · exact e
        · exact (Symbol.ne_of_lt (Symbol.lt_trans hyx (hx a ha'))).symm

theorem sublist_toList (h : s ⊆ t) : s.toList.Sublist t.toList :=
  sublist_of_subset s.sorted t.sorted h

theorem size_le_of_subset (h : s ⊆ t) : s.size ≤ t.size := (sublist_toList h).length_le

theorem exists_mem_of_size_lt (h : s.size < t.size) : ∃ a ∈ t, a ∉ s := by
  refine Classical.byContradiction fun hne => ?_
  have hsub : t ⊆ s := fun a ha => Classical.byContradiction fun hs => hne ⟨a, ha, hs⟩
  exact Nat.not_le_of_lt h (size_le_of_subset hsub)

theorem eq_of_toList (h : s.toList = t.toList) : s = t := by
  cases s; cases t; cases h; rfl

/-- A subset of the same size is the whole set. -/
theorem eq_of_subset_of_size (h : s ⊆ t) (hs : s.size = t.size) : s = t :=
  eq_of_toList ((sublist_toList h).eq_of_length hs)

theorem ext (h : ∀ a, a ∈ s ↔ a ∈ t) : s = t :=
  have hst : s ⊆ t := fun a => (h a).1
  have hts : t ⊆ s := fun a => (h a).2
  eq_of_subset_of_size hst (Nat.le_antisymm (size_le_of_subset hst) (size_le_of_subset hts))

theorem exists_mem_of_ne_empty (h : s ≠ ∅) : ∃ a, a ∈ s :=
  List.exists_mem_of_ne_nil s.toList fun e => h (eq_of_toList e)

end SymbolSet

end Predictive
