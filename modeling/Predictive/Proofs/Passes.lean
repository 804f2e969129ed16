import Mathlib.Data.Set.Card
import Predictive.Event

namespace Predictive

namespace Saturation

variable {ι σ ε κ : Type} {S : Saturation ι σ ε} {items : List ι} {names : List String}
  {i : ι} {s s' : σ} {e : ε} {q : κ} {k : Nat}

/-- The state after some passes. -/
def after (S : Saturation ι σ ε) (items : List ι) (s : σ) (k : Nat) : σ :=
  (fun s => (S.pass items s).2)^[k] s

theorem after_succ : S.after items s (k + 1) = (S.pass items (S.after items s k)).2 :=
  Function.iterate_succ_apply' ..

/-- The first passes, `k` of them, change the state; the next one does not and is the last. -/
structure Ends (S : Saturation ι σ ε) (items : List ι) (s : σ) (k : Nat) : Prop where
  changes : ∀ j < k, (S.pass items (S.after items s j)).1 ≠ []
  settled : (S.pass items (S.after items s k)).1 = []
  state_eq : (S.run items s).state = S.after items s k
  passes_eq : (S.run items s).passes = k + 1

theorem exists_ends (S : Saturation ι σ ε) (items : List ι) (s : σ) : ∃ k, S.Ends items s k := by
  have hrun (number : Nat) : ∃ k, (∀ j < k, (S.pass items (S.after items s j)).1 ≠ []) ∧
      (S.pass items (S.after items s k)).1 = [] ∧
      (S.runFrom items number s).state = S.after items s k ∧
      (S.runFrom items number s).passes = number + k := by
    fun_induction runFrom S items number s with
    | case1 number s h =>
      exact ⟨0, fun _ hj => absurd hj (Nat.not_lt_zero _), h, (pass_eq_of_events h).1, rfl⟩
    | case2 number s h rest ih =>
      obtain ⟨k, hchanges, hsettled, hstate, hpasses⟩ := ih
      refine ⟨k + 1, ?_, hsettled, hstate, ?_⟩
      · intro j hj
        cases j with
        | zero => exact h
        | succ j => exact hchanges j (Nat.lt_of_succ_lt_succ hj)
      · simp only [rest, hpasses]
        omega
  obtain ⟨k, hchanges, hsettled, hstate, hpasses⟩ := hrun 1
  exact ⟨k, hchanges, hsettled, hstate, hpasses.trans (Nat.add_comm 1 k)⟩

/-- The state after a visit, which may have changed nothing. -/
def visited (S : Saturation ι σ ε) (i : ι) (s : σ) : σ := ((S.visit i s).map Prod.snd).getD s

theorem visited_of_some (h : S.visit i s = some (e, s')) : S.visited i s = s' := by
  rw [visited, h]
  rfl

theorem visited_of_none (h : S.visit i s = none) : S.visited i s = s := by
  rw [visited, h]
  rfl

theorem pass_cons (S : Saturation ι σ ε) (i : ι) (is : List ι) (s : σ) :
    (S.pass (i :: is) s).2 = (S.pass is (S.visited i s)).2 := by
  cases hv : S.visit i s with
  | none => simp only [pass, hv, visited_of_none hv]
  | some r => simp only [pass, hv, visited_of_some hv]

/-- What is found falls apart into facts about names: a visit may find facts about its target, and
whether it finds the one of a kind `q` depends on the facts of that kind alone. -/
structure Spreads (S : Saturation ι σ ε) (names : List String) (found : κ → σ → Set String)
    (target : ι → String) (adds : κ → ι → σ → Prop) : Prop where
  named : ∀ q s, found q s ⊆ {n | n ∈ names}
  visited : ∀ q i s n, n ∈ found q (S.visited i s) ↔ n ∈ found q s ∨ n = target i ∧ adds q i s
  adds_congr : ∀ q i s s', found q s = found q s' → (adds q i s ↔ adds q i s')
  changes : ∀ i s r, S.visit i s = some r → ∃ q, target i ∉ found q s ∧ adds q i s

namespace Spreads

variable {found : κ → σ → Set String} {target : ι → String} {adds : κ → ι → σ → Prop}

theorem grows (h : S.Spreads names found target adds) (q : κ) (i : ι) (s : σ) :
    found q s ⊆ found q (S.visited i s) :=
  fun n hn => (h.visited q i s n).mpr (.inl hn)

theorem apart (h : S.Spreads names found target adds) (i : ι) (he : found q s = found q s') :
    found q (S.visited i s) = found q (S.visited i s') := by
  ext n
  rw [h.visited, h.visited, he, h.adds_congr q i s s' he]

theorem grows_pass (h : S.Spreads names found target adds) (items : List ι) (q : κ) (s : σ) :
    found q s ⊆ found q (S.pass items s).2 := by
  induction items generalizing s with
  | nil => exact subset_rfl
  | cons i is ih =>
    rw [pass_cons]
    exact (h.grows q i s).trans (ih _)

theorem apart_pass (h : S.Spreads names found target adds) (items : List ι)
    (he : found q s = found q s') :
    found q (S.pass items s).2 = found q (S.pass items s').2 := by
  induction items generalizing s s' with
  | nil => exact he
  | cons i is ih =>
    rw [pass_cons, pass_cons]
    exact ih (h.apart i he)

theorem exists_found_of_pass (h : S.Spreads names found target adds)
    (hp : (S.pass items s).1 ≠ []) : ∃ q, found q s ≠ found q (S.pass items s).2 := by
  induction items with
  | nil => exact absurd rfl hp
  | cons i is ih =>
    rw [pass_cons]
    cases hv : S.visit i s with
    | none =>
      simp only [pass, hv] at hp
      rw [visited_of_none hv]
      exact ih hp
    | some r =>
      obtain ⟨q, hnew, hadds⟩ := h.changes i s r hv
      have hin : target i ∈ found q (S.visited i s) := (h.visited q i s _).mpr (.inr ⟨rfl, hadds⟩)
      refine ⟨q, fun he => hnew ?_⟩
      rw [he]
      exact h.grows_pass is q _ hin

theorem ncard_lt (h : S.Spreads names found target adds)
    (hne : found q s ≠ found q (S.pass items s).2) :
    (found q s).ncard < (found q (S.pass items s).2).ncard := by
  have hfinite : (found q (S.pass items s).2).Finite := names.finite_toSet.subset (h.named q _)
  exact Set.ncard_lt_ncard ((h.grows_pass items q s).ssubset_of_ne hne) hfinite

/-- A kind of fact that spreads in one pass did so in all passes before. -/
theorem lt_ncard_after (h : S.Spreads names found target adds)
    (hne : found q (S.after items s k) ≠ found q (S.after items s (k + 1))) :
    k < (found q (S.after items s (k + 1))).ncard := by
  induction k with
  | zero => exact Nat.zero_lt_of_lt (h.ncard_lt hne)
  | succ k ih =>
    have hbefore : found q (S.after items s k) ≠ found q (S.after items s (k + 1)) := by
      intro he
      apply hne
      rw [after_succ (k := k + 1), ← h.apart_pass items he, after_succ]
    rw [after_succ (k := k + 1)] at hne ⊢
    exact Nat.lt_of_le_of_lt (ih hbefore) (h.ncard_lt hne)

theorem le_of_ends (h : S.Spreads names found target adds) (he : S.Ends items s k) :
    k ≤ names.length := by
  cases k with
  | zero => exact Nat.zero_le _
  | succ k =>
    obtain ⟨q, hq⟩ := h.exists_found_of_pass (he.changes k (Nat.lt_succ_self k))
    rw [← after_succ] at hq
    have hnamed : (found q (S.after items s (k + 1))).ncard ≤ names.toFinset.card := by
      rw [← Set.ncard_coe_finset, List.coe_toFinset]
      exact Set.ncard_le_ncard (h.named q _) names.finite_toSet
    have hlt := h.lt_ncard_after hq
    have hlen := names.toFinset_card_le
    omega

end Spreads

end Saturation

variable {g : Grammar} {n name : String} {t : Symbol} {names : List String}

/-- Whether the sequence vanishes depends only on which names do. -/
theorem Symbol.isNullable_congr {f f' : Family names Bool}
    (h : {n | f.getD n false} = {n | f'.getD n false}) (s : Symbol) :
    s.isNullable f = s.isNullable f' := by
  cases s with
  | nonTerminal n => exact Bool.eq_iff_iff.mpr (Set.ext_iff.mp h n)
  | _ => rfl

namespace Grammar

theorem mem_visited_nullable {f : Family g.nonTerminals Bool} :
    (g.nullableMarking.visited name f).getD n false ↔
      f.getD n false ∨ n = name ∧ g.hasNullableAlternative f name := by
  cases hv : g.nullableMarking.visit name f with
  | none =>
    have hnone := markNullable_eq_none.mp hv
    rw [Saturation.visited_of_none hv]
    refine ⟨.inl, ?_⟩
    rintro (h | ⟨rfl, h⟩)
    · exact h
    · exact hnone h
  | some r =>
    obtain ⟨⟨-, ha⟩, rfl⟩ := markNullable_eq_some.mp hv
    obtain ⟨p, hp, rfl, -⟩ := hasNullableAlternative_iff.mp ha
    have hl := g.left_declared p hp
    rw [Saturation.visited_of_some hv, Family.getD_set]
    by_cases he : n = p.left <;> simp [he, hl, ha]

theorem spreads_nullable (g : Grammar) :
    g.nullableMarking.Spreads g.nonTerminals (fun (_ : Unit) f => {n | f.getD n false}) id
      fun _ name f => g.hasNullableAlternative f name where
  named _ f n hn := by
    by_contra h
    rw [Set.mem_ofPred_eq, Family.getD_of_notMem h] at hn
    cases hn
  visited _ _ _ _ := mem_visited_nullable
  adds_congr _ name f f' he := by
    simp only [hasNullableAlternative, Symbol.isNullable_congr he]
  changes name f r hv := by
    obtain ⟨⟨hn, ha⟩, -⟩ := markNullable_eq_some.mp hv
    exact ⟨(), by simp [hn], ha⟩

section

variable {nullable : Family g.nonTerminals Bool}

theorem mem_visited_first {f : FirstSets g nullable} :
    t ∈ ((FirstSets.growing g nullable).visited name f).sets.getD n ∅ ↔
      t ∈ f.sets.getD n ∅ ∨ n = name ∧ t ∈ g.scan nullable f.sets name := by
  cases hv : (FirstSets.growing g nullable).visit name f with
  | none =>
    have hscan := FirstSets.grow_eq_none.mp hv
    rw [Saturation.visited_of_none hv, ← hscan]
    refine ⟨.inl, ?_⟩
    rintro (h | ⟨rfl, h⟩)
    · exact h
    · exact h
  | some r =>
    obtain ⟨hlt, rfl⟩ := FirstSets.grow_eq_some.mp hv
    obtain ⟨x, hx⟩ := List.exists_mem_of_length_pos (Nat.zero_lt_of_lt hlt)
    have hn := declared_of_mem_scan hx
    rw [Saturation.visited_of_some hv, FirstSets.rescan, Family.getD_set]
    by_cases he : n = name
    · subst he
      simpa [hn] using f.subset_scan n t
    · simp [he]

theorem spreads_first (g : Grammar) (nullable : Family g.nonTerminals Bool) :
    (FirstSets.growing g nullable).Spreads g.nonTerminals
      (fun t f => {n | t ∈ f.sets.getD n ∅}) id
      fun t name f => t ∈ g.scan nullable f.sets name where
  named t f n hn := by
    by_contra h
    rw [Set.mem_ofPred_eq, Family.getD_of_notMem h] at hn
    exact SymbolSet.notMem_empty hn
  visited _ _ _ _ := mem_visited_first
  adds_congr _ _ _ _ he :=
    ⟨mem_scan_mono fun n => (Set.ext_iff.mp he n).mp,
      mem_scan_mono fun n => (Set.ext_iff.mp he n).mpr⟩
  changes name f r hv := by
    obtain ⟨hlt, -⟩ := FirstSets.grow_eq_some.mp hv
    obtain ⟨t, ht, hnew⟩ := SymbolSet.exists_mem_of_size_lt hlt
    exact ⟨t, hnew, ht⟩

theorem target_declared (o : { o // o ∈ g.occurrences }) : o.1.target ∈ g.nonTerminals := by
  obtain ⟨p, hp, -, u, hu⟩ := mem_occurrences.mp o.2
  exact g.right_declared p hp (.nonTerminal o.1.target) (by simp [hu])

theorem mem_visited_follow {first : FirstSets g nullable} {o : { o // o ∈ g.occurrences }}
    {f : FollowSets g} : t ∈ ((FollowSets.growing first).visited o f).sets.getD n ∅ ↔
      t ∈ f.sets.getD n ∅ ∨ n = o.1.target ∧ t ∈ f.addition first o := by
  have hdeclared := target_declared o
  cases hv : (FollowSets.growing first).visit o f with
  | none =>
    have hsub := FollowSets.grow_eq_none.mp hv hdeclared
    rw [Saturation.visited_of_none hv]
    refine ⟨.inl, ?_⟩
    rintro (h | ⟨rfl, h⟩)
    · exact h
    · exact hsub t h
  | some r =>
    obtain ⟨-, rfl⟩ := FollowSets.grow_eq_some.mp hv
    rw [Saturation.visited_of_some hv, FollowSets.enlarge, Family.getD_set]
    by_cases he : n = o.1.target
    · subst he
      simp [hdeclared]
    · simp [he]

theorem spreads_follow (first : FirstSets g nullable) :
    (FollowSets.growing first).Spreads g.nonTerminals (fun t f => {n | t ∈ f.sets.getD n ∅})
      (fun o => o.1.target) fun t o f => t ∈ f.addition first o where
  named t f n hn := by
    by_contra h
    rw [Set.mem_ofPred_eq, Family.getD_of_notMem h] at hn
    exact SymbolSet.notMem_empty hn
  visited _ _ _ _ := mem_visited_follow
  adds_congr t o f f' he := by
    have hleft : t ∈ f.sets.getD o.1.left ∅ ↔ t ∈ f'.sets.getD o.1.left ∅ := Set.ext_iff.mp he _
    rw [FollowSets.mem_addition, FollowSets.mem_addition, hleft]
  changes o f r hv := by
    obtain ⟨⟨-, hlt⟩, -⟩ := FollowSets.grow_eq_some.mp hv
    obtain ⟨t, ht, hnew⟩ := SymbolSet.exists_mem_of_size_lt hlt
    exact ⟨t, hnew, (SymbolSet.mem_union.mp ht).resolve_left hnew⟩

end

end Grammar

/-- The number of passes that is reported at the end of a saturation. -/
def Event.passes? : Event → Option (SetKind × Nat)
  | saturated kind passes => some (kind, passes)
  | _ => none

namespace Analysis

theorem passes?_events (A : Analysis g) : A.events.filterMap Event.passes? =
    [(.nullable, A.nullableRun.passes), (.first, A.firstRun.passes),
      (.follow, A.followRun.passes)] := by
  simp [events, nullableEvents, firstEvents, followEvents, Event.passes?, List.filterMap_map,
    Function.comp_def]

end Analysis

namespace Table

/-- Each saturation of a grammar ends, and what its log reports is the number of its passes: one
more than there are passes that change something, and of those there are no more than
non-terminals. -/
theorem passes_bounded (T : Table g) : ∃ i j k,
    (i ≤ g.nonTerminals.length ∧ j ≤ g.nonTerminals.length ∧ k ≤ g.nonTerminals.length) ∧
    g.nullableMarking.Ends g.nonTerminals (.const _ false) i ∧
    (Grammar.FirstSets.growing g g.nullable.state).Ends g.nonTerminals (.empty g _) j ∧
    (Grammar.FollowSets.growing (g.first g.nullable.state).state).Ends g.occurrences.attach
      (.start g) k ∧
    T.buildEvents.filterMap Event.passes? =
      [(.nullable, i + 1), (.first, j + 1), (.follow, k + 1)] := by
  obtain ⟨i, hi⟩ := g.nullableMarking.exists_ends g.nonTerminals (.const _ false)
  obtain ⟨j, hj⟩ := (Grammar.FirstSets.growing g g.nullable.state).exists_ends g.nonTerminals
    (.empty g _)
  obtain ⟨k, hk⟩ := (Grammar.FollowSets.growing (g.first g.nullable.state).state).exists_ends
    g.occurrences.attach (.start g)
  have hnullable := (Grammar.spreads_nullable g).le_of_ends hi
  have hfirst := (Grammar.spreads_first g g.nullable.state).le_of_ends hj
  have hfollow := (Grammar.spreads_follow (g.first g.nullable.state).state).le_of_ends hk
  refine ⟨i, j, k, ⟨hnullable, hfirst, hfollow⟩, hi, hj, hk, ?_⟩
  have htable : T.events.filterMap Event.passes? = [] := by
    simp [events, Event.passes?]
  rw [buildEvents, List.filterMap_append, Analysis.passes?_events, htable, T.analysis_eq,
    ← hi.passes_eq, ← hj.passes_eq, ← hk.passes_eq]
  rfl

/-- The bound is reached when what names begin with is told against their order. -/
example : ∃ g, Grammar.ofText "S -> A\nA -> B\nB -> b" = .ok g ∧
    g.table.buildEvents.filterMap Event.passes? = [(.nullable, 1), (.first, 4), (.follow, 2)] :=
  ⟨_, rfl, by decide +kernel⟩

end Table

end Predictive
