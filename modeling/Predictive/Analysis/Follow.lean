import Predictive.Analysis.First

namespace Predictive

/-- A non-terminal in a right side of `left`, and what stands behind it. -/
structure Occurrence where
  left : String
  target : String
  rest : List Symbol

namespace Occurrence

def inSequence (left : String) : List Symbol → List Occurrence
  | [] => []
  | .nonTerminal target :: rest => ⟨left, target, rest⟩ :: inSequence left rest
  | _ :: rest => inSequence left rest

theorem mem_inSequence {left : String} {o : Occurrence} {l : List Symbol} :
    o ∈ inSequence left l ↔ o.left = left ∧ ∃ u, l = u ++ .nonTerminal o.target :: o.rest := by
  induction l with
  | nil => simp [inSequence]
  | cons s l ih =>
    have tail : (∃ u, s :: l = u ++ .nonTerminal o.target :: o.rest) ↔
        (s = .nonTerminal o.target ∧ l = o.rest) ∨
          ∃ u, l = u ++ .nonTerminal o.target :: o.rest := by
      refine ⟨?_, ?_⟩
      · rintro ⟨u, hu⟩
        cases u with
        | nil => exact .inl (by simpa using hu)
        | cons x u => exact .inr ⟨u, (List.cons.inj hu).2⟩
      · rintro (⟨rfl, rfl⟩ | ⟨u, rfl⟩)
        · exact ⟨[], rfl⟩
        · exact ⟨s :: u, rfl⟩
    rw [tail]
    cases s with
    | nonTerminal n =>
      obtain ⟨ol, ot, os⟩ := o
      simp only [inSequence, List.mem_cons, ih, mk.injEq, Symbol.nonTerminal.injEq]
      grind
    | _ => simp [inSequence, ih]

end Occurrence

namespace Grammar

variable {g : Grammar} {nullable : Family g.nonTerminals Bool}

def occurrences (g : Grammar) : List Occurrence :=
  g.productions.flatMap fun p => Occurrence.inSequence p.left p.right

theorem mem_occurrences {o : Occurrence} : o ∈ g.occurrences ↔
    ∃ p ∈ g.productions, p.left = o.left ∧ ∃ u, p.right = u ++ .nonTerminal o.target :: o.rest := by
  simp only [occurrences, List.mem_flatMap, Occurrence.mem_inSequence, @eq_comm _ o.left]

/-- The FOLLOW sets found by now. -/
structure FollowSets (g : Grammar) where
  sets : Family g.nonTerminals SymbolSet
  subset_alphabet : ∀ n, sets.getD n ∅ ⊆ g.alphabet

namespace FollowSets

variable {n : String} {t : Symbol}

/-- The end of the input follows the start symbol. -/
def start (g : Grammar) : FollowSets g where
  sets := (Family.const g.nonTerminals ∅).set g.start (.ofList [.endOfInput])
  subset_alphabet n := by
    rw [Family.getD_set]
    split
    · intro t ht
      rw [SymbolSet.mem_ofList, List.mem_singleton] at ht
      rw [alphabet, SymbolSet.mem_ofList, ht]
      exact List.mem_cons_self
    · rw [Family.getD_const]
      exact SymbolSet.empty_subset _

/-- What the occurrence says about the FOLLOW set of its target. -/
def addition (first : FirstSets g nullable) (f : FollowSets g) (o : Occurrence) : SymbolSet :=
  let rest := First.ofSequence nullable first.sets o.rest
  if rest.nullable && o.left ≠ o.target then rest.symbols ∪ f.sets.getD o.left ∅ else rest.symbols

theorem mem_addition {first : FirstSets g nullable} {f : FollowSets g} {o : Occurrence} :
    t ∈ f.addition first o ↔ t ∈ (First.ofSequence nullable first.sets o.rest).symbols ∨
      o.rest.all (·.isNullable nullable) ∧ o.left ≠ o.target ∧ t ∈ f.sets.getD o.left ∅ := by
  simp only [addition, First.nullable_ofSequence]
  by_cases h : o.rest.all (·.isNullable nullable) <;> by_cases h' : o.left = o.target <;>
    simp [h, h']

def enlarge (first : FirstSets g nullable) (o : { o // o ∈ g.occurrences }) (f : FollowSets g) :
    FollowSets g where
  sets := f.sets.set o.1.target (f.sets.getD o.1.target ∅ ∪ f.addition first o)
  subset_alphabet n := by
    rw [Family.getD_set]
    split
    · refine SymbolSet.union_subset (f.subset_alphabet _) fun t ht => ?_
      obtain ht | ⟨-, -, ht⟩ := mem_addition.1 ht
      · obtain ⟨p, hp, -, u, hu⟩ := mem_occurrences.1 o.2
        refine First.ofSequence_subset first.subset_alphabet (fun s hs => mem_alphabet hp ?_) t ht
        rw [hu]
        exact List.mem_append_right _ (.tail _ hs)
      · exact f.subset_alphabet _ t ht
    · exact f.subset_alphabet n

/-- Enlarges the set of the target; a target of no rule has no set. -/
def grow (first : FirstSets g nullable) (o : { o // o ∈ g.occurrences }) (f : FollowSets g) :
    Option (Growth × FollowSets g) :=
  let size := (f.sets.getD o.1.target ∅ ∪ f.addition first o).size
  if o.1.target ∈ g.nonTerminals ∧ (f.sets.getD o.1.target ∅).size ≠ size then
    some (⟨o.1.target, size⟩, f.enlarge first o)
  else none

theorem grow_eq_some {first : FirstSets g nullable} {o : { o // o ∈ g.occurrences }}
    {f : FollowSets g} {r : Growth × FollowSets g} :
    f.grow first o = some r ↔ (o.1.target ∈ g.nonTerminals ∧
      (f.sets.getD o.1.target ∅).size < (f.sets.getD o.1.target ∅ ∪ f.addition first o).size) ∧
        r = (⟨o.1.target, (f.sets.getD o.1.target ∅ ∪ f.addition first o).size⟩,
          f.enlarge first o) := by
  have := SymbolSet.size_le_of_subset
    (SymbolSet.subset_union_left (f.sets.getD o.1.target ∅) (f.addition first o))
  simp only [grow, Option.ite_none_right_eq_some, Option.some.injEq, @eq_comm _ r]
  exact and_congr_left fun _ => and_congr_right fun _ => by omega

theorem grow_eq_none {first : FirstSets g nullable} {o : { o // o ∈ g.occurrences }}
    {f : FollowSets g} : f.grow first o = none ↔
      (o.1.target ∈ g.nonTerminals → f.addition first o ⊆ f.sets.getD o.1.target ∅) := by
  have hsub := SymbolSet.subset_union_left (f.sets.getD o.1.target ∅) (f.addition first o)
  simp only [grow, ite_eq_right_iff, reduceCtorEq, imp_false, not_and, Classical.not_not]
  refine forall_congr' fun _ => ⟨fun h t ht => ?_, fun h => ?_⟩
  · rw [SymbolSet.eq_of_subset_of_size hsub h]
    exact SymbolSet.mem_union.2 (.inr ht)
  · exact congrArg SymbolSet.size
      (SymbolSet.ext fun t => ⟨hsub t, fun ht => (SymbolSet.mem_union.1 ht).elim id (h t)⟩)

def growing (first : FirstSets g nullable) :
    Saturation { o // o ∈ g.occurrences } (FollowSets g) Growth where
  visit := grow first
  room f := f.sets.weight fun set => g.alphabet.size - set.size
  room_lt {o f _ _} h := by
    obtain ⟨⟨hn, hlt⟩, h⟩ := grow_eq_some.1 h
    obtain ⟨rfl, rfl⟩ := Prod.mk.inj h
    have hle := SymbolSet.size_le_of_subset ((f.enlarge first o).subset_alphabet o.1.target)
    simp only [enlarge, Family.getD_set, hn, and_self, if_true] at hle
    refine Family.weight_set_lt ∅ hn ?_
    omega

end FollowSets

def follow (first : FirstSets g nullable) : Saturation.Outcome (FollowSets g) Growth :=
  (FollowSets.growing first).run g.occurrences.attach (.start g)

/-- At the end every occurrence agrees with the FOLLOW set of its target. -/
theorem follow_closed {first : FirstSets g nullable} {p : Production} (hp : p ∈ g.productions)
    {u rest : List Symbol} {n : String} (hr : p.right = u ++ .nonTerminal n :: rest)
    (hn : n ∈ g.nonTerminals) {t : Symbol}
    (ht : t ∈ (First.ofSequence nullable first.sets rest).symbols ∨
      rest.all (·.isNullable nullable) ∧ t ∈ (g.follow first).state.sets.getD p.left ∅) :
    t ∈ (g.follow first).state.sets.getD n ∅ := by
  have ho : ⟨p.left, n, rest⟩ ∈ g.occurrences := mem_occurrences.2 ⟨p, hp, rfl, u, hr⟩
  have hv := Saturation.visit_run (S := FollowSets.growing first) (s := .start g)
    (List.mem_attach _ ⟨_, ho⟩)
  have hsub := FollowSets.grow_eq_none.1 hv hn
  obtain ht | ⟨hnull, ht⟩ := ht
  · exact hsub t (FollowSets.mem_addition.2 (.inl ht))
  · by_cases e : p.left = n
    · exact e ▸ ht
    · exact hsub t (FollowSets.mem_addition.2 (.inr ⟨hnull, e, ht⟩))

end Grammar

end Predictive
