import Predictive.Proofs.Building
import Predictive.Proofs.Passes
import Predictive.Proofs.Reading

namespace Predictive

namespace Saturation

variable {ι σ ε : Type} {items : List ι} {s s' s'' : σ} {es es' : List ε} {number : Nat}

/-- One state comes from another by visits that change it and report the events. -/
inductive Emits (S : Saturation ι σ ε) : σ → List ε → σ → Prop
  | nil {s : σ} : Emits S s [] s
  | cons {i : ι} {s s' s'' : σ} {e : ε} {es : List ε} : S.visit i s = some (e, s') →
      Emits S s' es s'' → Emits S s (e :: es) s''

variable {S : Saturation ι σ ε}

theorem Emits.append (h : S.Emits s es s') (h' : S.Emits s' es' s'') :
    S.Emits s (es ++ es') s'' := by
  induction h with
  | nil => exact h'
  | cons hv _ ih => exact .cons hv (ih h')

theorem emits_pass (S : Saturation ι σ ε) (items : List ι) (s : σ) :
    S.Emits s (S.pass items s).1 (S.pass items s).2 := by
  induction items generalizing s with
  | nil => exact .nil
  | cons i is ih =>
    cases hv : S.visit i s with
    | none =>
      simp only [pass, hv]
      exact ih s
    | some r =>
      simp only [pass, hv]
      exact .cons hv (ih r.2)

theorem emits_runFrom (S : Saturation ι σ ε) (items : List ι) (number : Nat) (s : σ) :
    S.Emits s ((S.runFrom items number s).events.map Prod.snd)
      (S.runFrom items number s).state := by
  fun_induction runFrom S items number s with
  | case1 number s h =>
    have hpass := S.emits_pass items s
    rwa [h] at hpass
  | case2 number s _ rest ih =>
    simp only [rest, List.map_append, List.map_map, Function.comp_def, List.map_id']
    exact (S.emits_pass items s).append ih

theorem emits_run (S : Saturation ι σ ε) (items : List ι) (s : σ) :
    S.Emits s ((S.run items s).events.map Prod.snd) (S.run items s).state :=
  S.emits_runFrom items 1 s

/-- Events are told pass by pass, and none of the last pass. -/
structure Numbered (events : List (Nat × ε)) (passes : Nat) : Prop where
  ordered : (events.map Prod.fst).Pairwise (· ≤ ·)
  lt_passes : ∀ e ∈ events, e.1 < passes

theorem lt_passes_runFrom : number < (S.runFrom items number s).passes + 1 ∧
    ∀ e ∈ (S.runFrom items number s).events,
      number ≤ e.1 ∧ e.1 < (S.runFrom items number s).passes := by
  fun_induction runFrom S items number s with
  | case1 number s h => exact ⟨Nat.lt_succ_self number, List.forall_mem_nil _⟩
  | case2 number s _ rest ih =>
    obtain ⟨hpasses, hevents⟩ := ih
    refine ⟨Nat.lt_of_succ_lt hpasses, ?_⟩
    intro e he
    obtain he | he := List.mem_append.mp he
    · obtain ⟨_, -, rfl⟩ := List.mem_map.mp he
      exact ⟨Nat.le_refl number, Nat.lt_of_succ_lt_succ hpasses⟩
    · obtain ⟨hle, hlt⟩ := hevents e he
      exact ⟨Nat.le_of_succ_le hle, hlt⟩

theorem ordered_runFrom : ((S.runFrom items number s).events.map Prod.fst).Pairwise (· ≤ ·) := by
  fun_induction runFrom S items number s with
  | case1 number s h => exact .nil
  | case2 number s _ rest ih =>
    rw [List.map_append, List.pairwise_append, List.map_map]
    refine ⟨?_, ih, ?_⟩
    · rw [List.pairwise_map]
      exact List.pairwise_of_forall fun _ _ => Nat.le_refl number
    · intro k hk m hm
      obtain ⟨_, -, rfl⟩ := List.mem_map.mp hk
      obtain ⟨e, he, rfl⟩ := List.mem_map.mp hm
      exact Nat.le_of_succ_le (lt_passes_runFrom.2 e he).1

theorem numbered_run (S : Saturation ι σ ε) (items : List ι) (s : σ) :
    Numbered (S.run items s).events (S.run items s).passes :=
  ⟨ordered_runFrom, fun e he => (lt_passes_runFrom.2 e he).2⟩

end Saturation

/-- The sizes that are told about a set, from what it is at the start to what it is in the end. -/
structure TellsGrowth (initial final : SymbolSet) (sizes : List Nat) : Prop where
  increasing : sizes.Pairwise (· < ·)
  beyond : ∀ size ∈ sizes, initial.size < size
  last : ∀ size ∈ sizes.getLast?, size = final.size
  nil_iff : sizes = [] ↔ final = initial

namespace TellsGrowth

variable {initial grown final : SymbolSet} {sizes : List Nat}

theorem refl (set : SymbolSet) : TellsGrowth set set [] := ⟨.nil, nofun, nofun, iff_of_true rfl rfl⟩

theorem size_le (h : TellsGrowth initial final sizes) : initial.size ≤ final.size := by
  cases hl : sizes.getLast? with
  | none =>
    rw [List.getLast?_eq_none_iff, h.nil_iff] at hl
    exact Nat.le_of_eq (congrArg _ hl.symm)
  | some size =>
    rw [← h.last size hl]
    exact Nat.le_of_lt (h.beyond size (List.mem_of_getLast? hl))

theorem cons (h : TellsGrowth grown final sizes) (hlt : initial.size < grown.size) :
    TellsGrowth initial final (grown.size :: sizes) := by
  refine ⟨List.pairwise_cons.mpr ⟨h.beyond, h.increasing⟩, ?_, ?_, ?_⟩
  · refine List.forall_mem_cons.mpr ⟨hlt, ?_⟩
    exact fun size hs => Nat.lt_trans hlt (h.beyond size hs)
  · intro size hs
    cases sizes with
    | nil =>
      obtain rfl : final = grown := h.nil_iff.mp rfl
      exact (Option.some.inj hs).symm
    | cons next sizes =>
      rw [List.getLast?_cons_cons] at hs
      exact h.last size hs
  · refine iff_of_false (List.cons_ne_nil _ _) ?_
    rintro rfl
    exact Nat.not_le_of_lt hlt h.size_le

end TellsGrowth

/-- The sizes that are told about the set of one name. -/
def sizesOf (n : String) (growths : List Growth) : List Nat :=
  (growths.filter (·.name = n)).map Growth.size

/-- A visit that changes the sets changes one, and reports its name and its new size. -/
structure Saturation.ReportsGrowth {ι σ : Type} (S : Saturation ι σ Growth)
    (sets : σ → String → SymbolSet) : Prop where
  size_eq : ∀ i s e s', S.visit i s = some (e, s') → e.size = (sets s' e.name).size
  size_lt : ∀ i s e s', S.visit i s = some (e, s') → (sets s e.name).size < e.size
  others : ∀ i s e s', S.visit i s = some (e, s') → ∀ n, n ≠ e.name → sets s' n = sets s n

theorem Saturation.ReportsGrowth.tells {ι σ : Type} {S : Saturation ι σ Growth}
    {sets : σ → String → SymbolSet} {s s' : σ} {es : List Growth} (h : S.ReportsGrowth sets)
    (he : S.Emits s es s') (n : String) : TellsGrowth (sets s n) (sets s' n) (sizesOf n es) := by
  induction he with
  | nil => exact .refl _
  | @cons i s s' _ e es hv _ ih =>
    by_cases hn : n = e.name
    · subst hn
      have hsizes : sizesOf e.name (e :: es) = (sets s' e.name).size :: sizesOf e.name es := by
        simp [sizesOf, h.size_eq i s e s' hv]
      rw [hsizes]
      exact ih.cons ((h.size_eq i s e s' hv) ▸ h.size_lt i s e s' hv)
    · have hsizes : sizesOf n (e :: es) = sizesOf n es := by
        simp [sizesOf, Ne.symm hn]
      rw [hsizes, ← h.others i s e s' hv n hn]
      exact ih

namespace Grammar

variable {g : Grammar} {nullable : Family g.nonTerminals Bool}

theorem reportsGrowth_first (g : Grammar) (nullable : Family g.nonTerminals Bool) :
    (FirstSets.growing g nullable).ReportsGrowth fun f n => f.sets.getD n ∅ where
  size_eq name f e f' hv := by
    obtain ⟨hlt, he⟩ := FirstSets.grow_eq_some.mp hv
    obtain ⟨rfl, rfl⟩ := Prod.mk.inj he
    obtain ⟨t, ht⟩ := List.exists_mem_of_length_pos (Nat.zero_lt_of_lt hlt)
    rw [FirstSets.rescan, Family.getD_set, if_pos ⟨rfl, declared_of_mem_scan ht⟩]
  size_lt name f e f' hv := by
    obtain ⟨hlt, he⟩ := FirstSets.grow_eq_some.mp hv
    obtain ⟨rfl, rfl⟩ := Prod.mk.inj he
    exact hlt
  others name f e f' hv n hn := by
    obtain ⟨-, he⟩ := FirstSets.grow_eq_some.mp hv
    obtain ⟨rfl, rfl⟩ := Prod.mk.inj he
    rw [FirstSets.rescan, Family.getD_set, if_neg fun h => hn h.1]

theorem reportsGrowth_follow (first : FirstSets g nullable) :
    (FollowSets.growing first).ReportsGrowth fun f n => f.sets.getD n ∅ where
  size_eq o f e f' hv := by
    obtain ⟨-, he⟩ := FollowSets.grow_eq_some.mp hv
    obtain ⟨rfl, rfl⟩ := Prod.mk.inj he
    rw [FollowSets.enlarge, Family.getD_set, if_pos ⟨rfl, target_declared o⟩]
  size_lt o f e f' hv := by
    obtain ⟨⟨-, hlt⟩, he⟩ := FollowSets.grow_eq_some.mp hv
    obtain ⟨rfl, rfl⟩ := Prod.mk.inj he
    exact hlt
  others o f e f' hv n hn := by
    obtain ⟨-, he⟩ := FollowSets.grow_eq_some.mp hv
    obtain ⟨rfl, rfl⟩ := Prod.mk.inj he
    rw [FollowSets.enlarge, Family.getD_set, if_neg fun h => hn h.1]

/-- A name is marked once, and what is marked is nullable from then on. -/
theorem marks_of_emits {f f' : Family g.nonTerminals Bool} {names : List String}
    (h : g.nullableMarking.Emits f names f') : names.Nodup ∧
      (∀ n ∈ names, f.getD n false = false) ∧
      ∀ n, f'.getD n false ↔ f.getD n false ∨ n ∈ names := by
  induction h with
  | nil => exact ⟨.nil, nofun, fun n => by simp⟩
  | @cons _ f f₁ f' name names hv _ ih =>
    obtain ⟨hnodup, hnew, hall⟩ := ih
    obtain ⟨⟨hn, ha⟩, he⟩ := markNullable_eq_some.mp hv
    obtain ⟨rfl, -⟩ := Prod.mk.inj he
    have hvisit : ∀ n, f₁.getD n false ↔ f.getD n false ∨ n = name := by
      intro n
      rw [← Saturation.visited_of_some hv, mem_visited_nullable, and_iff_left ha]
    refine ⟨List.nodup_cons.mpr ⟨?_, hnodup⟩, List.forall_mem_cons.mpr ⟨hn, ?_⟩, ?_⟩
    · intro hm
      have hmarked := (hvisit name).mpr (.inr rfl)
      rw [hnew name hm] at hmarked
      cases hmarked
    · intro n hm
      have hunmarked := mt (hvisit n).mpr (by simp [hnew n hm])
      simpa using fun h => hunmarked (.inl h)
    · intro n
      rw [hall, hvisit, List.mem_cons, or_assoc]

theorem marks_nullable (g : Grammar) : (g.nullable.events.map Prod.snd).Nodup ∧
    ∀ n, n ∈ g.nullable.events.map Prod.snd ↔
      n ∈ g.nonTerminals ∧ g.nullable.state.getD n false := by
  have hemits : g.nullableMarking.Emits (.const _ false) (g.nullable.events.map Prod.snd)
      g.nullable.state := Saturation.emits_run ..
  obtain ⟨hnodup, -, hall⟩ := marks_of_emits hemits
  refine ⟨hnodup, fun n => ?_⟩
  have hmarked : g.nullable.state.getD n false ↔ n ∈ g.nullable.events.map Prod.snd := by
    simp only [hall, Family.getD_const, Bool.false_eq_true, false_or]
  rw [← hmarked, iff_and_self]
  exact fun h => (spreads_nullable g).named () _ h

theorem tells_first (g : Grammar) (nullable : Family g.nonTerminals Bool) (n : String) :
    TellsGrowth ∅ ((g.first nullable).state.sets.getD n ∅)
      (sizesOf n ((g.first nullable).events.map Prod.snd)) := by
  have hemits : (FirstSets.growing g nullable).Emits (.empty g nullable)
      ((g.first nullable).events.map Prod.snd) (g.first nullable).state := Saturation.emits_run ..
  have hempty : (FirstSets.empty g nullable).sets.getD n ∅ = ∅ := Family.getD_const n ∅
  have htells := (reportsGrowth_first g nullable).tells hemits n
  rwa [hempty] at htells

theorem tells_follow (first : FirstSets g nullable) (n : String) :
    TellsGrowth (if n = g.start then .ofList [.endOfInput] else ∅)
      ((g.follow first).state.sets.getD n ∅)
      (sizesOf n ((g.follow first).events.map Prod.snd)) := by
  have hemits : (FollowSets.growing first).Emits (.start g)
      ((g.follow first).events.map Prod.snd) (g.follow first).state := Saturation.emits_run ..
  have hstart : (FollowSets.start g).sets.getD n ∅ =
      if n = g.start then .ofList [.endOfInput] else ∅ := by
    simp only [FollowSets.start, Family.getD_set, g.start_declared, and_true, Family.getD_const]
  have htells := (reportsGrowth_follow first).tells hemits n
  rwa [hstart] at htells

end Grammar

namespace Event

def marked? : Event → Option (Nat × String)
  | markedNullable pass name => some (pass, name)
  | _ => none

def firstGrowth? : Event → Option (Nat × Growth)
  | firstGrew pass growth => some (pass, growth)
  | _ => none

def followGrowth? : Event → Option (Nat × Growth)
  | followGrew pass growth => some (pass, growth)
  | _ => none

end Event

namespace Rule

variable {rules : Except GrammarError (List Rule)} {g : Grammar}

theorem warningEvents_eq (h : rules >>= Grammar.ofRules = .ok g) :
    warningEvents rules = g.warnings.map .warned := by
  obtain ⟨rules, rfl, h⟩ := bind_eq_ok_iff.mp h
  rw [warningEvents, (builds_of_ofRules h).warnings]

end Rule

namespace Analysis

variable {g : Grammar}

theorem marked?_events (A : Analysis g) :
    A.events.filterMap Event.marked? = A.nullableRun.events := by
  simp [events, nullableEvents, firstEvents, followEvents, Event.marked?, List.filterMap_cons,
    Function.comp_def]

theorem firstGrowth?_events (A : Analysis g) :
    A.events.filterMap Event.firstGrowth? = A.firstRun.events := by
  simp [events, nullableEvents, firstEvents, followEvents, Event.firstGrowth?, List.filterMap_cons,
    Function.comp_def]

theorem followGrowth?_events (A : Analysis g) :
    A.events.filterMap Event.followGrowth? = A.followRun.events := by
  simp [events, nullableEvents, firstEvents, followEvents, Event.followGrowth?, List.filterMap_cons,
    Function.comp_def]

/-- Nothing in the analysis is worth a warning. -/
theorem filter_warn_events (A : Analysis g) : A.events.filter (·.level = .warn) = [] := by
  simp [events, nullableEvents, firstEvents, followEvents, List.filter_map, Function.comp_def,
    Event.level]

end Analysis

namespace Table

variable {g : Grammar} {rules : Except GrammarError (List Rule)}

/-- What is logged from the reading of the rules up to the finished table. -/
def log (rules : Except GrammarError (List Rule)) (T : Table g) : List Event :=
  Rule.warningEvents rules ++ T.buildEvents

/-- What looks neither at warnings nor at the table sees the analysis alone. -/
theorem filterMap_log {α : Type} {f : Event → Option α} (T : Table g)
    (hw : ∀ w, f (.warned w) = none) (hc : ∀ c, f (.conflict c) = none)
    (hb : ∀ rows columns, f (.tableBuilt rows columns) = none) :
    (T.log rules).filterMap f = T.analysis.events.filterMap f := by
  have hwarnings : (Rule.warningEvents rules).filterMap f = [] := by
    cases rules with
    | error => rfl
    | ok rules => simp [Rule.warningEvents, hw]
  have htable : T.events.filterMap f = [] := by
    simp [events, hc, hb]
  rw [log, buildEvents, List.filterMap_append, List.filterMap_append, hwarnings, htable,
    List.nil_append, List.append_nil]

theorem filter_warn_log (T : Table g) (h : rules >>= Grammar.ofRules = .ok g) :
    (T.log rules).filter (·.level = .warn) =
      g.warnings.map .warned ++ T.conflicts.map .conflict := by
  have htable : T.events.filter (·.level = .warn) = T.conflicts.map .conflict := by
    simp [events, List.filter_map, Function.comp_def, Event.level]
  have hwarnings : (g.warnings.map Event.warned).filter (·.level = .warn) =
      g.warnings.map .warned := by
    simp [List.filter_map, Function.comp_def, Event.level]
  rw [log, buildEvents, Rule.warningEvents_eq h, List.filter_append, List.filter_append, hwarnings,
    Analysis.filter_warn_events, htable, List.nil_append]

/-- The log of a grammar that was read, up to the finished table, tells what was found. Each
nullable non-terminal is marked once, and nothing else is; the sizes of each FIRST and FOLLOW set
increase to that of the set in the end, and none is told just if the set stays as it was; passes are
told in order, all before the one that is reported as the last. What is worth a warning are the
warnings of the grammar and then the conflicts of the table. -/
theorem log_exact (T : Table g) (h : rules >>= Grammar.ofRules = .ok g) : ∃ i j k,
    (T.log rules).filterMap Event.passes? = [(.nullable, i), (.first, j), (.follow, k)] ∧
    Saturation.Numbered ((T.log rules).filterMap Event.marked?) i ∧
    Saturation.Numbered ((T.log rules).filterMap Event.firstGrowth?) j ∧
    Saturation.Numbered ((T.log rules).filterMap Event.followGrowth?) k ∧
    (((T.log rules).filterMap Event.marked?).map Prod.snd).Nodup ∧
    (∀ n, n ∈ ((T.log rules).filterMap Event.marked?).map Prod.snd ↔
      n ∈ g.nonTerminals ∧ T.analysis.isNullable (.nonTerminal n)) ∧
    (∀ n, TellsGrowth ∅ (T.analysis.firstOfSymbol (.nonTerminal n)).symbols
      (sizesOf n (((T.log rules).filterMap Event.firstGrowth?).map Prod.snd))) ∧
    (∀ n, TellsGrowth (if n = g.start then .ofList [.endOfInput] else ∅) (T.analysis.follow n)
      (sizesOf n (((T.log rules).filterMap Event.followGrowth?).map Prod.snd))) ∧
    (T.log rules).filter (·.level = .warn) =
      g.warnings.map .warned ++ T.conflicts.map .conflict := by
  have hpasses : (T.log rules).filterMap Event.passes? = T.analysis.events.filterMap Event.passes? :=
    T.filterMap_log (fun _ => rfl) (fun _ => rfl) fun _ _ => rfl
  have hmarked : (T.log rules).filterMap Event.marked? = g.nullable.events := by
    rw [T.filterMap_log (fun _ => rfl) (fun _ => rfl) fun _ _ => rfl, Analysis.marked?_events,
      T.analysis_eq]
    rfl
  have hfirst : (T.log rules).filterMap Event.firstGrowth? = (g.first g.nullable.state).events := by
    rw [T.filterMap_log (fun _ => rfl) (fun _ => rfl) fun _ _ => rfl, Analysis.firstGrowth?_events,
      T.analysis_eq]
    rfl
  have hfollow : (T.log rules).filterMap Event.followGrowth? =
      (g.follow (g.first g.nullable.state).state).events := by
    rw [T.filterMap_log (fun _ => rfl) (fun _ => rfl) fun _ _ => rfl, Analysis.followGrowth?_events,
      T.analysis_eq]
    rfl
  rw [hpasses, Analysis.passes?_events, hmarked, hfirst, hfollow, T.filter_warn_log h, T.analysis_eq]
  obtain ⟨hnodup, hmarks⟩ := g.marks_nullable
  exact ⟨_, _, _, rfl, g.nullableMarking.numbered_run _ _, Saturation.numbered_run _ _ _,
    Saturation.numbered_run _ _ _, hnodup, hmarks, g.tells_first g.nullable.state,
    Grammar.tells_follow _, rfl⟩

/-- No rule is for `B`, and both alternatives of `E` begin with what `L` does. -/
def unruled : Grammar where
  start := "E"
  nonTerminals := ["E", "L"]
  productions := [⟨"E", [.nonTerminal "L", .terminal "B"]⟩, ⟨"E", [.nonTerminal "L"]⟩,
    ⟨"L", [.epsilon]⟩, ⟨"L", [.terminal "x", .nonTerminal "E"]⟩]
  terminals := ["B", "x"]
  warnings := [⟨"E", "B"⟩]
  start_declared := by decide
  left_declared := by decide
  right_declared := by simp [Symbol.IsRight]

theorem log_exact_unruled :
    (Rule.ofText "E -> L B | L\nL -> ε | x E" >>= Grammar.ofRules) = .ok unruled ∧
    TellsGrowth ∅ (unruled.table.analysis.firstOfSymbol (.nonTerminal "E")).symbols [1, 2] ∧
    TellsGrowth (.ofList [.endOfInput]) (unruled.table.analysis.follow "E") [2] ∧
    ((unruled.table.log (Rule.ofText "E -> L B | L\nL -> ε | x E")).filter (·.level = .warn)).map
      Event.message = ["E: \"B\" has no productions and is treated as a terminal",
        "conflict at (E, B): E -> L B, E -> L", "conflict at (E, x): E -> L B, E -> L"] := by
  have hread : (Rule.ofText "E -> L B | L\nL -> ε | x E" >>= Grammar.ofRules) = .ok unruled := rfl
  obtain ⟨_, _, _, -, -, -, -, -, -, hfirst, hfollow, hwarn⟩ := log_exact unruled.table hread
  have hsizes : sizesOf "E" (((unruled.table.log (Rule.ofText
      "E -> L B | L\nL -> ε | x E")).filterMap Event.firstGrowth?).map Prod.snd) = [1, 2] := by
    decide +kernel
  have hsizes' : sizesOf "E" (((unruled.table.log (Rule.ofText
      "E -> L B | L\nL -> ε | x E")).filterMap Event.followGrowth?).map Prod.snd) = [2] := by
    decide +kernel
  refine ⟨hread, hsizes ▸ hfirst "E", hsizes' ▸ hfollow "E", ?_⟩
  rw [hwarn]
  decide +kernel

end Table

end Predictive
