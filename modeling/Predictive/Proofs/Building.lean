import Mathlib.Data.List.Nodup
import Predictive.Grammar.Rules

namespace Predictive

section Appearances

variable {α β : Type} [BEq α] [LawfulBEq α] {a : α} {l m : List α}

/-- What occurs, each once, in the order of first appearance. -/
structure FirstAppearances (l occurrences : List α) : Prop where
  nodup : l.Nodup
  mem_iff : ∀ a, a ∈ l ↔ a ∈ occurrences
  ordered : l.Pairwise fun a b => occurrences.idxOf a < occurrences.idxOf b

theorem eraseDups_filter (p : α → Bool) (l : List α) :
    (l.filter p).eraseDups = l.eraseDups.filter p := by
  match l with
  | [] => rfl
  | a :: l =>
    have hlen : (l.filter fun b => !b == a).length < l.length + 1 :=
      Nat.lt_succ_of_le (List.length_filter_le _ _)
    have ih := eraseDups_filter p (l.filter fun b => !b == a)
    rw [List.eraseDups_cons]
    by_cases ha : p a
    · rw [List.filter_cons_of_pos ha, List.filter_cons_of_pos ha, List.eraseDups_cons, ← ih,
        List.filter_filter, List.filter_filter]
      simp only [Bool.and_comm]
    · rw [List.filter_cons_of_neg ha, List.filter_cons_of_neg ha, ← ih, List.filter_filter]
      congr 1
      apply List.filter_congr
      intro b _
      by_cases hb : b = a <;> simp_all
termination_by l.length

/-- The element at the head stays, and what follows loses it. -/
theorem eraseDups_cons_eq (a : α) (l : List α) :
    (a :: l).eraseDups = a :: l.eraseDups.filter fun b => !b == a := by
  rw [List.eraseDups_cons, eraseDups_filter]

theorem eraseDups_cons_congr (a : α) (h : l.eraseDups = m.eraseDups) :
    (a :: l).eraseDups = (a :: m).eraseDups := by
  rw [eraseDups_cons_eq, eraseDups_cons_eq, h]

theorem eraseDups_cons_cons (a : α) (l : List α) : (a :: a :: l).eraseDups = (a :: l).eraseDups := by
  rw [eraseDups_cons_eq, eraseDups_cons_eq, List.filter_cons_of_neg (by simp), List.filter_filter]
  simp

theorem nodup_eraseDups (l : List α) : l.eraseDups.Nodup := by
  induction l with
  | nil => exact .nil
  | cons a l ih =>
    rw [eraseDups_cons_eq]
    exact List.nodup_cons.mpr ⟨by simp, ih.filter _⟩

theorem eraseDups_of_nodup (h : l.Nodup) : l.eraseDups = l := by
  induction l with
  | nil => rfl
  | cons a l ih =>
    have ⟨ha, hl⟩ := List.nodup_cons.mp h
    rw [eraseDups_cons_eq, ih hl, List.filter_eq_self.mpr]
    intro b hb
    have hne : b ≠ a := fun e => ha (e ▸ hb)
    simpa using hne

theorem head?_eraseDups (l : List α) : l.eraseDups.head? = l.head? := by
  cases l with
  | nil => rfl
  | cons a l => rw [eraseDups_cons_eq, List.head?_cons, List.head?_cons]

theorem findSome?_filter_ne {f : α → Option β} (ha : f a = none) (l : List α) :
    (l.filter fun b => !b == a).findSome? f = l.findSome? f := by
  induction l with
  | nil => rfl
  | cons b l ih =>
    by_cases hb : b = a
    · subst hb
      rw [List.filter_cons_of_neg (by simp), ih, List.findSome?_cons, ha]
    · rw [List.filter_cons_of_pos (by simpa using hb), List.findSome?_cons, List.findSome?_cons, ih]

theorem findSome?_eraseDups (f : α → Option β) (l : List α) :
    l.eraseDups.findSome? f = l.findSome? f := by
  induction l with
  | nil => rfl
  | cons a l ih =>
    rw [eraseDups_cons_eq, List.findSome?_cons, List.findSome?_cons]
    cases ha : f a with
    | some b => rfl
    | none => rw [findSome?_filter_ne ha, ih]

theorem firstAppearances_eraseDups (l : List α) : FirstAppearances l.eraseDups l := by
  refine ⟨nodup_eraseDups l, fun a => List.mem_eraseDups, ?_⟩
  induction l with
  | nil => exact .nil
  | cons a l ih =>
    rw [eraseDups_cons_eq]
    have hidx : ∀ b, b ≠ a → (a :: l).idxOf b = l.idxOf b + 1 :=
      fun b hb => List.idxOf_cons_ne l hb.symm
    have hne : ∀ b ∈ l.eraseDups.filter fun b => !b == a, b ≠ a := by simp
    refine List.pairwise_cons.mpr ⟨fun b hb => ?_, ?_⟩
    · rw [hidx b (hne b hb), List.idxOf_cons_self]
      exact Nat.succ_pos _
    · refine (ih.filter _).imp_of_mem fun {b c} hb hc hlt => ?_
      rw [hidx b (hne b hb), hidx c (hne c hc)]
      exact Nat.succ_lt_succ hlt

end Appearances

namespace Rule

variable {rules rules' : List Rule} {left : String} {tokens : List String} {e : GrammarError}
  {g : Grammar}

theorem clauses_cons (r : Rule) (rules : List Rule) :
    clauses (r :: rules) = r.alternatives.map (r.left, ·) ++ clauses rules := rfl

theorem mem_clauses : (left, tokens) ∈ clauses rules ↔
    ∃ r ∈ rules, r.left = left ∧ tokens ∈ r.alternatives := by
  simp only [clauses, List.mem_flatMap, List.mem_map, Prod.mk.injEq]
  constructor
  · rintro ⟨r, hr, _, ht, rfl, rfl⟩
    exact ⟨r, hr, rfl, ht⟩
  · rintro ⟨r, hr, rfl, ht⟩
    exact ⟨r, hr, tokens, ht, rfl, rfl⟩

/-- An alternative is `ε` alone, or holds neither `ε` nor the end mark. -/
def Acceptable (tokens : List String) : Prop :=
  tokens = [Symbol.epsilonName] ∨
    tokens ≠ [] ∧ Symbol.epsilonName ∉ tokens ∧ Symbol.endName ∉ tokens

/-- Why an alternative of `left` is refused. -/
inductive Refused (left : String) (tokens : List String) : GrammarError → Prop
  | empty : tokens = [] → Refused left tokens (.emptyAlternative left)
  | epsilon : Symbol.epsilonName ∈ tokens → tokens ≠ [Symbol.epsilonName] →
      Refused left tokens (.epsilonInSequence left)
  | reserved : Symbol.epsilonName ∉ tokens → Symbol.endName ∈ tokens →
      Refused left tokens (.reservedToken left Symbol.endName)

theorem fault?_eq_none_iff : fault? left tokens = none ↔ Acceptable tokens := by
  unfold fault? Acceptable
  split
  · next h => simp [h]
  · split
    · next h => by_cases he : tokens = [Symbol.epsilonName] <;> simp [h, he]
    · next hne h =>
      have he : tokens ≠ [Symbol.epsilonName] := fun he => h (he ▸ List.mem_cons_self)
      simp [hne, h, he]

theorem fault?_eq_some_iff : fault? left tokens = some e ↔ Refused left tokens e := by
  constructor
  · intro h
    unfold fault? at h
    split at h
    · next ht => exact Option.some.inj h ▸ .empty ht
    · split at h
      · next he =>
        split at h
        · cases h
        · next ht => exact Option.some.inj h ▸ .epsilon he ht
      · next he =>
        split at h
        · next hend => exact Option.some.inj h ▸ .reserved he hend
        · cases h
  · rintro (ht | ⟨he, ht⟩ | ⟨he, hend⟩)
    · exact if_pos ht
    · have hne : tokens ≠ [] := List.ne_nil_of_mem he
      rw [fault?, if_neg hne, if_pos he, if_neg ht]
    · have hne : tokens ≠ [] := List.ne_nil_of_mem hend
      rw [fault?, if_neg hne, if_neg he, if_pos hend]

/-- What is looked for first: a left side that is reserved. -/
def reservedName? (name : String) : Option GrammarError :=
  if isReserved name then some (.reservedToken name name) else none

theorem findSome?_reservedLeft? (rules : List Rule) :
    rules.findSome? reservedLeft? = (declared rules).findSome? reservedName? := by
  rw [declared, findSome?_eraseDups, List.findSome?_map]
  rfl

theorem mem_declared_iff {name : String} : name ∈ declared rules ↔ ∃ r ∈ rules, r.left = name := by
  rw [declared, List.mem_eraseDups, List.mem_map]

theorem mem_declared_append {more : List Rule} {name : String} :
    name ∈ declared (rules ++ more) ↔ name ∈ declared rules ∨ name ∈ declared more := by
  rw [declared, List.mem_eraseDups, List.map_append, List.mem_append, declared, declared,
    List.mem_eraseDups, List.mem_eraseDups]

theorem symbolOf_congr {names names' : List String} {token : String}
    (h : token ∈ names ↔ token ∈ names') : symbolOf names token = symbolOf names' token := by
  simp only [symbolOf, h]

theorem declared_eq_nil_iff : declared rules = [] ↔ rules = [] := by
  cases rules with
  | nil => simp [declared]
  | cons r rules => simp [declared, eraseDups_cons_eq]

/-- The grammar is made of the rules. -/
structure Builds (rules : List Rule) (g : Grammar) : Prop where
  unreserved : ∀ name ∈ declared rules, ¬ isReserved name
  acceptable : ∀ c ∈ clauses rules, Acceptable c.2
  start : (declared rules).head? = some g.start
  nonTerminals : g.nonTerminals = declared rules
  productions : g.productions = Rule.productions rules
  terminals : g.terminals = Rule.terminals rules
  warnings : g.warnings = Rule.warnings rules

theorem findSome?_reservedName?_eq_none_iff {names : List String} :
    names.findSome? reservedName? = none ↔ ∀ name ∈ names, ¬ isReserved name := by
  simp [List.findSome?_eq_none_iff, reservedName?]

theorem findSome?_fault?_eq_none_iff {cs : List (String × List String)} :
    (cs.findSome? fun (left, tokens) => fault? left tokens) = none ↔ ∀ c ∈ cs, Acceptable c.2 := by
  simp only [List.findSome?_eq_none_iff, fault?_eq_none_iff]

/-- Reserved left sides come first, then the lack of a rule, then the alternatives in order. -/
theorem ofRules_eq_error_iff : Grammar.ofRules rules = .error e ↔
    (declared rules).findSome? reservedName? = some e ∨
      (∀ name ∈ declared rules, ¬ isReserved name) ∧
        (declared rules = [] ∧ e = .noStartSymbol ∨
          (clauses rules).findSome? (fun (left, tokens) => fault? left tokens) = some e) := by
  rw [← findSome?_reservedName?_eq_none_iff, ← findSome?_reservedLeft?, declared_eq_nil_iff]
  unfold Grammar.ofRules
  split
  · next he => simp [he]
  · next he => simp [clauses, eq_comm]
  · next he =>
    rw [he]
    dsimp only
    split
    · next hf => simp [hf]
    · next hf => simp [hf]

theorem builds_of_ofRules (h : Grammar.ofRules rules = .ok g) : Builds rules g := by
  unfold Grammar.ofRules at h
  split at h
  · cases h
  · cases h
  · next first rest he =>
    dsimp only at h
    split at h
    · cases h
    · next hf =>
      obtain rfl := Except.ok.inj h
      rw [findSome?_reservedLeft?, findSome?_reservedName?_eq_none_iff] at he
      exact ⟨he, findSome?_fault?_eq_none_iff.mp hf, head?_eraseDups _, rfl, rfl, rfl,
        rfl⟩

theorem exists_ofRules_iff : (∃ g, Grammar.ofRules rules = .ok g) ↔
    (∀ name ∈ declared rules, ¬ isReserved name) ∧ rules ≠ [] ∧
      ∀ c ∈ clauses rules, Acceptable c.2 := by
  constructor
  · rintro ⟨g, h⟩
    have hb := builds_of_ofRules h
    refine ⟨hb.unreserved, ?_, hb.acceptable⟩
    rintro rfl
    cases hb.start
  · rintro ⟨hu, hne, ha⟩
    cases hr : Grammar.ofRules rules with
    | ok g => exact ⟨g, rfl⟩
    | error e =>
      obtain he | ⟨-, ⟨hd, -⟩ | he⟩ := ofRules_eq_error_iff.mp hr
      · rw [findSome?_reservedName?_eq_none_iff.mpr hu] at he
        cases he
      · exact absurd (declared_eq_nil_iff.mp hd) hne
      · rw [findSome?_fault?_eq_none_iff.mpr ha] at he
        cases he

theorem Builds.unique {g' : Grammar} (h : Builds rules g) (h' : Builds rules g') : g = g' := by
  have hs : g.start = g'.start := Option.some.inj (h.start.symm.trans h'.start)
  have hn := h.nonTerminals.trans h'.nonTerminals.symm
  have hp := h.productions.trans h'.productions.symm
  have ht := h.terminals.trans h'.terminals.symm
  have hw := h.warnings.trans h'.warnings.symm
  cases g
  cases g'
  cases hs
  cases hn
  cases hp
  cases ht
  cases hw
  rfl

theorem ofRules_eq_ok_iff : Grammar.ofRules rules = .ok g ↔ Builds rules g := by
  refine ⟨builds_of_ofRules, fun h => ?_⟩
  have hne : rules ≠ [] := by
    rintro rfl
    cases h.start
  obtain ⟨g', hg'⟩ := exists_ofRules_iff.mpr ⟨h.unreserved, hne, h.acceptable⟩
  rw [hg', h.unique (builds_of_ofRules hg')]

theorem warnings_eq (h : ∀ name ∈ declared rules, ¬ isReserved name) : warnings rules =
    (((tokensRead (clauses rules)).filter fun (_, token) =>
      token ∉ declared rules && startsUpper token).map fun (left, token) =>
        (⟨left, token⟩ : Warning)).eraseDups := by
  have hn : rules.findSome? reservedLeft? = none := by
    rw [findSome?_reservedLeft?, findSome?_reservedName?_eq_none_iff]
    exact h
  rw [warnings, hn]
  rfl

/-- A grammar depends on which names are declared in which order and on the alternatives in order,
but not on how the alternatives of one left side are shared out among rules. -/
theorem ofRules_congr (hd : declared rules = declared rules') (hc : clauses rules = clauses rules') :
    Grammar.ofRules rules = Grammar.ofRules rules' := by
  cases hr : Grammar.ofRules rules' with
  | error e =>
    rw [ofRules_eq_error_iff] at hr ⊢
    rwa [hd, hc]
  | ok g =>
    have hb := builds_of_ofRules hr
    have hu : ∀ name ∈ declared rules, ¬ isReserved name := hd ▸ hb.unreserved
    rw [ofRules_eq_ok_iff]
    refine ⟨hu, hc ▸ hb.acceptable, hd ▸ hb.start, hd ▸ hb.nonTerminals, ?_, ?_, ?_⟩
    · rw [hb.productions, productions, productions, hd, hc]
    · rw [hb.terminals, terminals, terminals, hd, hc]
    · rw [hb.warnings, warnings_eq hu, warnings_eq hb.unreserved, hd, hc]

end Rule

end Predictive
