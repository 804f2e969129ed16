import Predictive.Proofs.Passes

namespace Predictive

namespace Grammar

variable {g : Grammar} {nullable : Family g.nonTerminals Bool} {name : String}

/-- A visit to sets of which nothing is known: a scan of another size takes the place of the set of
the name, be it larger or smaller. -/
def overwrite (g : Grammar) (nullable : Family g.nonTerminals Bool)
    (sets : Family g.nonTerminals SymbolSet) (name : String) : Family g.nonTerminals SymbolSet :=
  if (sets.getD name ∅).size = (g.scan nullable sets name).size then sets
  else sets.set name (g.scan nullable sets name)

/-- The sets in the middle of a pass: `k` passes over all names were made before it, and in it the
names of `done` were visited. -/
def setsWithin (g : Grammar) (nullable : Family g.nonTerminals Bool) (k : Nat)
    (done : List String) : Family g.nonTerminals SymbolSet :=
  done.foldl (g.overwrite nullable)
    ((fun sets => g.nonTerminals.foldl (g.overwrite nullable) sets)^[k] (.const _ ∅))

theorem sets_visited (f : FirstSets g nullable) (name : String) :
    ((FirstSets.growing g nullable).visited name f).sets = g.overwrite nullable f.sets name := by
  by_cases h : (f.sets.getD name ∅).size = (g.scan nullable f.sets name).size
  · have hv : (FirstSets.growing g nullable).visit name f = none := if_pos h
    rw [Saturation.visited_of_none hv, overwrite, if_pos h]
  · have hv : (FirstSets.growing g nullable).visit name f =
        some (⟨name, (g.scan nullable f.sets name).size⟩, f.rescan name) := if_neg h
    rw [Saturation.visited_of_some hv, overwrite, if_neg h, FirstSets.rescan]

theorem sets_pass (f : FirstSets g nullable) (names : List String) :
    ((FirstSets.growing g nullable).pass names f).2.sets =
      names.foldl (g.overwrite nullable) f.sets := by
  induction names generalizing f with
  | nil => rfl
  | cons name names ih => rw [Saturation.pass_cons, ih, sets_visited, List.foldl_cons]

theorem sets_after (g : Grammar) (nullable : Family g.nonTerminals Bool) (k : Nat) :
    ((FirstSets.growing g nullable).after g.nonTerminals (.empty g nullable) k).sets =
      g.setsWithin nullable k [] := by
  induction k with
  | zero => rfl
  | succ k ih =>
    rw [Saturation.after_succ, sets_pass, ih, setsWithin, setsWithin, List.foldl_nil,
      List.foldl_nil, Function.iterate_succ_apply']

/-- The state in the middle of a pass holds these sets. -/
theorem sets_within (g : Grammar) (nullable : Family g.nonTerminals Bool) (k : Nat)
    (done : List String) :
    ((FirstSets.growing g nullable).pass done
      ((FirstSets.growing g nullable).after g.nonTerminals (.empty g nullable) k)).2.sets =
        g.setsWithin nullable k done := by
  rw [sets_pass, sets_after, setsWithin, setsWithin, List.foldl_nil]

theorem FirstSets.size_eq_iff (f : FirstSets g nullable) (name : String) :
    (f.sets.getD name ∅).size = (g.scan nullable f.sets name).size ↔
      f.sets.getD name ∅ = g.scan nullable f.sets name :=
  ⟨SymbolSet.eq_of_subset_of_size (f.subset_scan name), congrArg SymbolSet.size⟩

theorem FirstSets.getD_overwrite (f : FirstSets g nullable) (hn : name ∈ g.nonTerminals)
    (n : String) : (g.overwrite nullable f.sets name).getD n ∅ =
      if n = name then g.scan nullable f.sets name else f.sets.getD n ∅ := by
  unfold overwrite
  split
  · next h =>
    split
    · next he => rw [he, (f.size_eq_iff name).mp h]
    · rfl
  · simp only [Family.getD_set, hn, and_true]

theorem FirstSets.subset_overwrite (f : FirstSets g nullable) (name n : String) :
    f.sets.getD n ∅ ⊆ (g.overwrite nullable f.sets name).getD n ∅ := by
  unfold overwrite
  split
  · exact SymbolSet.subset_refl _
  · exact f.subset_set name n

/-- Sets that a scan does not leave hold all that is found: a visit puts into them what is scanned
in sets within them. -/
theorem first_subset {other : Family g.nonTerminals SymbolSet}
    (h : ∀ n ∈ g.nonTerminals, g.scan nullable other n ⊆ other.getD n ∅) (n : String) :
    (g.first nullable).state.sets.getD n ∅ ⊆ other.getD n ∅ := by
  refine Saturation.run_induction (S := FirstSets.growing g nullable)
    (P := fun f => ∀ n, f.sets.getD n ∅ ⊆ other.getD n ∅) ?_ ?_ n
  · intro n
    rw [FirstSets.empty, Family.getD_const]
    exact SymbolSet.empty_subset _
  · intro name f e f' hf hv n
    obtain ⟨-, he⟩ := FirstSets.grow_eq_some.mp hv
    obtain ⟨rfl, rfl⟩ := Prod.mk.inj he
    rw [FirstSets.rescan, Family.getD_set]
    split
    · next hn =>
      rw [hn.1]
      exact SymbolSet.subset_trans (scan_mono hf) (h name hn.2)
    · exact hf n

/-- At every visit of the passes that find the FIRST sets, a scan of the name has all that is stored
for it. So the scan is another set just if its size is another, and what the visit leaves for the
name is the scan; no set loses a symbol. The sets in the end are those behind such passes. Each of
them is its own scan, and they are within all families of sets of which this is true. -/
theorem first_least (g : Grammar) :
    let nullable := g.analyse.nullableRun.state
    let growing := FirstSets.growing g nullable
    let final := g.analyse.firstRun.state.sets
    (∀ k done name rest, g.nonTerminals = done ++ name :: rest →
      let stored := g.setsWithin nullable k done
      let scanned := g.scan nullable stored name
      let next := g.overwrite nullable stored name
      (growing.pass done (growing.after g.nonTerminals (.empty g nullable) k)).2.sets = stored ∧
      stored.getD name ∅ ⊆ scanned ∧
      ((stored.getD name ∅).size = scanned.size ↔ stored.getD name ∅ = scanned) ∧
      next.getD name ∅ = scanned ∧
      ∀ n, stored.getD n ∅ ⊆ next.getD n ∅) ∧
    (∃ k, final = g.setsWithin nullable k [] ∧ g.analyse.firstRun.passes = k + 1) ∧
    (∀ n, final.getD n ∅ = g.scan nullable final n) ∧
    ∀ other : Family g.nonTerminals SymbolSet,
      (∀ n ∈ g.nonTerminals, other.getD n ∅ = g.scan nullable other n) →
      ∀ n, final.getD n ∅ ⊆ other.getD n ∅ := by
  intro nullable growing final
  refine ⟨?_, ?_, first_eq_scan, ?_⟩
  · intro k done name rest hnames stored scanned next
    have hn : name ∈ g.nonTerminals := by simp [hnames]
    have hstored := g.sets_within nullable k done
    refine ⟨hstored, ?_⟩
    simp only [next, scanned, stored, ← hstored]
    refine ⟨FirstSets.subset_scan _ name, FirstSets.size_eq_iff _ name, ?_,
      FirstSets.subset_overwrite _ name⟩
    rw [FirstSets.getD_overwrite _ hn, if_pos rfl]
  · obtain ⟨k, hk⟩ := growing.exists_ends g.nonTerminals (.empty g nullable)
    refine ⟨k, ?_, hk.passes_eq⟩
    rw [← sets_after, ← hk.state_eq]
    rfl
  · intro other hother
    refine first_subset fun n hn => ?_
    rw [hother n hn]
    exact SymbolSet.subset_refl _

/-- `E` and `T` begin with what the other begins with. -/
def cyclic : Grammar where
  start := "E"
  nonTerminals := ["E", "T"]
  productions := [⟨"E", [.nonTerminal "E", .terminal "a"]⟩, ⟨"E", [.nonTerminal "T"]⟩,
    ⟨"T", [.terminal "b"]⟩, ⟨"T", [.nonTerminal "E"]⟩]
  terminals := ["a", "b"]
  warnings := []
  start_declared := by decide
  left_declared := by decide
  right_declared := by simp [Symbol.IsRight]

/-- Along a cycle larger sets are their own scans, too. -/
theorem first_least_cyclic :
    let other := Family.const cyclic.nonTerminals (.ofList [.terminal "b", .terminal "c"])
    Grammar.ofText "E -> E a | T\nT -> b | E" = .ok cyclic ∧
    (∀ n ∈ cyclic.nonTerminals,
      other.getD n ∅ = cyclic.scan cyclic.analyse.nullableRun.state other n) ∧
    (∀ n, cyclic.analyse.firstRun.state.sets.getD n ∅ ⊆ other.getD n ∅) ∧
    cyclic.analyse.firstRun.state.sets.getD "E" ∅ ≠ other.getD "E" ∅ := by
  intro other
  have hother : ∀ n ∈ cyclic.nonTerminals,
      other.getD n ∅ = cyclic.scan cyclic.analyse.nullableRun.state other n := by decide +kernel
  exact ⟨rfl, hother, (first_least cyclic).2.2.2 other hother, by decide +kernel⟩

end Grammar

end Predictive
