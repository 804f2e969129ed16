import Mathlib.Logic.Equiv.Basic
import Predictive.Proofs.Cells
import Predictive.Proofs.Inclusion
import Predictive.Proofs.Representation
import Predictive.Proofs.Run
import Predictive.Proofs.Soundness

namespace Predictive

/-- Zero stays, and what is above it moves as before. -/
def shift (σ : Equiv.Perm Nat) : Equiv.Perm Nat where
  toFun
    | 0 => 0
    | i + 1 => σ i + 1
  invFun
    | 0 => 0
    | i + 1 => σ.symm i + 1
  left_inv i := by cases i <;> simp
  right_inv i := by cases i <;> simp

/-- The places of two lists with the same elements can be matched. -/
theorem exists_perm_getElem? {α : Type} {l l' : List α} (h : l.Perm l') :
    ∃ σ : Equiv.Perm Nat, ∀ i, l'[σ i]? = l[i]? := by
  induction h with
  | nil => exact ⟨.refl Nat, fun _ => rfl⟩
  | cons a _ ih =>
    obtain ⟨σ, hσ⟩ := ih
    refine ⟨shift σ, ?_⟩
    intro i
    cases i with
    | zero => rfl
    | succ i => exact hσ i
  | swap a b l =>
    refine ⟨Equiv.swap 0 1, ?_⟩
    intro i
    match i with
    | 0 => rfl
    | 1 => rfl
    | i + 2 =>
      rw [Equiv.swap_apply_of_ne_of_ne (by omega) (by omega)]
      rfl
  | trans _ _ ih ih' =>
    obtain ⟨σ, hσ⟩ := ih
    obtain ⟨τ, hτ⟩ := ih'
    refine ⟨σ.trans τ, ?_⟩
    intro i
    exact (hτ (σ i)).trans (hσ i)

theorem perm_of_filter {α β : Type} [DecidableEq α] [DecidableEq β] {l l' : List α} (f : α → β)
    (h : ∀ b, (l.filter (f · = b)).Perm (l'.filter (f · = b))) : l.Perm l' := by
  rw [List.perm_iff_count]
  intro a
  have hc := (h (f a)).count_eq a
  rwa [List.count_filter (by simp), List.count_filter (by simp)] at hc

def Entry.renumber (σ : Nat → Nat) (e : Entry) : Entry := ⟨σ e.id, e.production⟩

namespace Grammar

variable {g g' : Grammar} {σ : Equiv.Perm Nat} {n : String} {l : List Symbol} {t : Symbol}

/-- The production with the number `i` has the number `σ i` in `g'`. -/
structure Renumbers (σ : Equiv.Perm Nat) (g g' : Grammar) : Prop where
  start : g.start = g'.start
  nonTerminals : ∀ n, n ∈ g.nonTerminals ↔ n ∈ g'.nonTerminals
  productions : ∀ i, g'.productions[σ i]? = g.productions[i]?

namespace Renumbers

theorem symm (h : g.Renumbers σ g') : g'.Renumbers σ.symm g where
  start := h.start.symm
  nonTerminals n := (h.nonTerminals n).symm
  productions i := by rw [← h.productions, Equiv.apply_symm_apply]

theorem includedIn (h : g.Renumbers σ g') : g.IncludedIn g' where
  start := h.start
  nonTerminals n := (h.nonTerminals n).mp
  productions p hp := by
    obtain ⟨i, hi⟩ := List.getElem?_of_mem hp
    rw [← h.productions] at hi
    exact List.mem_of_getElem? hi

theorem vanishes_iff (h : g.Renumbers σ g') : g.Vanishes l ↔ g'.Vanishes l :=
  ⟨h.includedIn.vanishes, h.symm.includedIn.vanishes⟩

theorem begins_iff (h : g.Renumbers σ g') : g.Begins t l ↔ g'.Begins t l :=
  ⟨h.includedIn.begins, h.symm.includedIn.begins⟩

theorem firstOfSymbol_eq (h : g.Renumbers σ g') (s : Symbol) :
    g.analyse.firstOfSymbol s = g'.analyse.firstOfSymbol s :=
  Analysis.firstOfSymbol_congr h.vanishes_iff fun _ => h.begins_iff

theorem follow_eq (h : g.Renumbers σ g') (hn : n ∈ g.nonTerminals) :
    g.analyse.follow n = g'.analyse.follow n := by
  apply SymbolSet.ext
  intro t
  rw [mem_follow_iff hn, mem_follow_iff ((h.nonTerminals n).mp hn)]
  exact ⟨h.includedIn.follows, h.symm.includedIn.follows⟩

theorem follow?_eq (h : g.Renumbers σ g') (n : String) :
    g.analyse.follow? n = g'.analyse.follow? n := by
  by_cases hn : n ∈ g.nonTerminals
  · rw [follow?_eq_some hn, follow?_eq_some ((h.nonTerminals n).mp hn), h.follow_eq hn]
  · have hn' : n ∉ g'.nonTerminals := mt (h.nonTerminals n).mpr hn
    rw [follow?_eq_none_iff.mpr hn, follow?_eq_none_iff.mpr hn']

end Renumbers

end Grammar

/-- The same verdict, but for the numbers of the productions between which a cell does not decide. -/
inductive Verdict.Renumbered (σ : Nat → Nat) : Verdict → Verdict → Prop
  | same {verdict} : (∀ n found position ids,
      verdict ≠ .rejected (.ambiguousDecision n found position ids)) → Renumbered σ verdict verdict
  | ambiguous {n found position ids ids'} : ids'.Perm (ids.map σ) →
      Renumbered σ (.rejected (.ambiguousDecision n found position ids))
        (.rejected (.ambiguousDecision n found position ids'))

inductive Action.Renumbered (σ : Nat → Nat) : Action → Action → Prop
  | matched {s} : Renumbered σ (.matched s) (.matched s)
  | expand {e} : Renumbered σ (.expand e) (.expand (e.renumber σ))
  | halt {verdict verdict'} : verdict.Renumbered σ verdict' →
      Renumbered σ (.halt verdict) (.halt verdict')

namespace Table

variable {g g' : Grammar} {T : Table g} {T' : Table g'} {σ : Equiv.Perm Nat} {n : String}
  {t : Symbol} {e : Entry} {c : Config} {a : Action}

theorem mem_get_renumber (h : g.Renumbers σ g') (he : e ∈ T.get n t) :
    e.renumber σ ∈ T'.get n t := by
  obtain ⟨hid, -⟩ := T.mem_get.mp he
  exact h.includedIn.mem_get he ((h.productions e.id).trans hid)

/-- Every cell holds the same productions under their new numbers. -/
theorem perm_get (h : g.Renumbers σ g') (T : Table g) (T' : Table g') (n : String) (t : Symbol) :
    (T'.get n t).Perm ((T.get n t).map (Entry.renumber σ)) := by
  have hinj : Function.Injective (Entry.renumber σ) := by
    intro e e' he
    obtain ⟨hid, hp⟩ := Entry.mk.inj he
    cases e
    cases e'
    cases σ.injective hid
    cases hp
    rfl
  apply (List.perm_ext_iff_of_nodup (T'.nodup_get n t) ((T.nodup_get n t).map hinj)).mpr
  intro e
  rw [List.mem_map]
  refine ⟨?_, ?_⟩
  · intro he
    refine ⟨e.renumber σ.symm, mem_get_renumber h.symm he, ?_⟩
    rw [Entry.renumber, Entry.renumber, Equiv.apply_symm_apply]
  · rintro ⟨e, he, rfl⟩
    exact mem_get_renumber h he

theorem length_get_eq (h : g.Renumbers σ g') (T : Table g) (T' : Table g') (n : String)
    (t : Symbol) : (T'.get n t).length = (T.get n t).length :=
  (perm_get h T T' n t).length_eq.trans (List.length_map _)

/-- In the same configuration the same is done. -/
theorem Acts.exists_renumbered (h : g.Renumbers σ g') (T' : Table g') (ha : T.Acts c a) :
    ∃ a', T'.action c = a' ∧ a.Renumbered σ a' := by
  cases ha with
  | accept => exact ⟨_, action_of_acts .accept, .halt (.same nofun)⟩
  | trailing => exact ⟨_, action_of_acts .trailing, .halt (.same nofun)⟩
  | exhausted => exact ⟨_, action_of_acts .exhausted, .halt (.same nofun)⟩
  | matched hs => exact ⟨_, action_of_acts (.matched hs), .matched⟩
  | unexpected htop hne => exact ⟨_, action_of_acts (.unexpected htop hne), .halt (.same nofun)⟩
  | @expand n _ found _ _ e he =>
    have he' : T'.get n found = [e.renumber σ] := by
      have hp := perm_get h T T' n found
      rw [he] at hp
      exact List.perm_singleton.mp hp
    exact ⟨_, action_of_acts (.expand he'), .expand⟩
  | @noApplicable n _ found _ _ hnone =>
    have hnone' : T'.get n found = [] := by
      have hp := perm_get h T T' n found
      rw [hnone] at hp
      exact List.perm_nil.mp hp
    exact ⟨_, action_of_acts (.noApplicable hnone'), .halt (.same nofun)⟩
  | @ambiguous n _ found _ _ hlen =>
    have hlen' : 1 < (T'.get n found).length := by
      rw [length_get_eq h T T']
      exact hlen
    have hids : ((T'.get n found).map Entry.id).Perm (((T.get n found).map Entry.id).map σ) := by
      have hp := (perm_get h T T' n found).map Entry.id
      rwa [List.map_map] at hp ⊢
    exact ⟨_, action_of_acts (.ambiguous hlen'), .halt (.ambiguous hids)⟩

theorem verdict_renumbered (h : g.Renumbers σ g') (T : Table g) (T' : Table g') (c : Config) :
    (T.traceFrom c).verdict.Renumbered σ (T'.traceFrom c).verdict := by
  induction c using run_induction (T := T) with
  | halt c verdict hv =>
    obtain ⟨_, ha', hr⟩ := (acts_of_action hv).exists_renumbered h T'
    cases hr with
    | halt hr =>
      rw [traceFrom_of_halt hv, traceFrom_of_halt ha']
      exact hr
  | matched c s hm ih =>
    obtain ⟨_, hm', hr⟩ := (acts_of_action hm).exists_renumbered h T'
    cases hr with
    | matched =>
      rw [(trace_of_moves (.matched hm)).1, (trace_of_moves (.matched hm')).1]
      exact ih
  | expand c e hx ih =>
    obtain ⟨_, hx', hr⟩ := (acts_of_action hx).exists_renumbered h T'
    cases hr with
    | expand =>
      rw [(trace_of_moves (.expand hx)).1, (trace_of_moves (.expand hx')).1]
      exact ih

theorem validate_renumbered (h : g.Renumbers σ g') (T : Table g) (T' : Table g')
    (tokens : List String) : (T.validate tokens).Renumbered σ (T'.validate tokens) := by
  rw [validate, validate, trace, trace, ← initial_congr h.start]
  exact verdict_renumbered h T T' (initial g tokens)

theorem isLL1_eq (h : g.Renumbers σ g') (T : Table g) (T' : Table g') : T.isLL1 = T'.isLL1 := by
  rw [Bool.eq_iff_iff, isLL1_iff_length_get_le, isLL1_iff_length_get_le]
  simp only [length_get_eq h T T']

theorem conflict_iff (h : g.Renumbers σ g') (T : Table g) (T' : Table g') :
    (∃ c ∈ T.conflicts, c.nonTerminal = n ∧ c.lookahead = t) ↔
      ∃ c ∈ T'.conflicts, c.nonTerminal = n ∧ c.lookahead = t := by
  rw [exists_conflict_iff, exists_conflict_iff, length_get_eq h T T']

end Table

namespace Rule

variable {rules rules' : List Rule} {texts texts' : List (String × List String)} {g g' : Grammar}
  {n : String}

/-- All alternatives of a name, word by word, in the order of the rules. -/
def alternativesIn (texts : List (String × List String)) (n : String) : List (List String) :=
  texts.flatMap fun (left, alternatives) =>
    if words left.toList = [n] then alternatives.map fun a => words a.toList else []

theorem filter_clauses (h : List.Forall₂ Denotes texts rules) (n : String) :
    (clauses rules).filter (·.1 = n) = (alternativesIn texts n).map (n, ·) := by
  induction h with
  | nil => rfl
  | @cons t r texts rules ht _ ih =>
    obtain ⟨hl, ha⟩ := ht
    have hleft : words t.1.toList = [n] ↔ r.left = n := by
      rw [words_of_spells hl, List.cons.injEq, and_iff_left rfl]
    have hcons : alternativesIn (t :: texts) n =
        (if r.left = n then r.alternatives else []) ++ alternativesIn texts n := by
      rw [← if_congr hleft rfl rfl, ← map_words_eq_iff.mpr ha]
      rfl
    rw [clauses_cons, List.filter_append, ih, hcons, List.map_append]
    congr 1
    by_cases hn : r.left = n
    · subst hn
      simp
    · simp [hn]

theorem filter_clauses_of_notMem (hn : n ∉ declared rules) :
    (clauses rules).filter (·.1 = n) = [] := by
  rw [List.filter_eq_nil_iff]
  rintro ⟨left, tokens⟩ hc he
  obtain ⟨r, hr, hleft, -⟩ := mem_clauses.mp hc
  exact hn (mem_declared_iff.mpr ⟨r, hr, hleft.trans (of_decide_eq_true he)⟩)

theorem perm_clauses (h : List.Forall₂ Denotes texts rules) (h' : List.Forall₂ Denotes texts' rules')
    (hd : ∀ n, n ∈ declared rules ↔ n ∈ declared rules')
    (ha : ∀ n ∈ declared rules, (alternativesIn texts n).Perm (alternativesIn texts' n)) :
    (clauses rules).Perm (clauses rules') := by
  apply perm_of_filter Prod.fst
  intro n
  by_cases hn : n ∈ declared rules
  · rw [filter_clauses h, filter_clauses h']
    exact (ha n hn).map _
  · rw [filter_clauses_of_notMem hn, filter_clauses_of_notMem (mt (hd n).mpr hn)]

theorem perm_productions (hc : (clauses rules).Perm (clauses rules'))
    (hd : ∀ n, n ∈ declared rules ↔ n ∈ declared rules') :
    (productions rules).Perm (productions rules') := by
  have hsymbol : symbolOf (declared rules) = symbolOf (declared rules') := by
    funext token
    exact symbolOf_congr (hd token)
  simp only [productions, hsymbol]
  exact hc.map _

theorem exists_renumbers_of_ofTexts (h : (ofTexts texts >>= Grammar.ofRules) = .ok g)
    (h' : (ofTexts texts' >>= Grammar.ofRules) = .ok g') (hs : g.start = g'.start)
    (hn : ∀ n, n ∈ g.nonTerminals ↔ n ∈ g'.nonTerminals)
    (ha : ∀ n ∈ g.nonTerminals, (alternativesIn texts n).Perm (alternativesIn texts' n)) :
    ∃ σ, g.Renumbers σ g' := by
  obtain ⟨rules, hrules, h⟩ := bind_eq_ok_iff.mp h
  obtain ⟨rules', hrules', h'⟩ := bind_eq_ok_iff.mp h'
  have hb := builds_of_ofRules h
  have hb' := builds_of_ofRules h'
  have hd : ∀ n, n ∈ declared rules ↔ n ∈ declared rules' := by
    rw [← hb.nonTerminals, ← hb'.nonTerminals]
    exact hn
  rw [hb.nonTerminals] at ha
  have hclauses : (clauses rules).Perm (clauses rules') :=
    perm_clauses (ofTexts_eq_ok_iff.mp hrules) (ofTexts_eq_ok_iff.mp hrules') hd ha
  obtain ⟨σ, hσ⟩ := exists_perm_getElem? (perm_productions hclauses hd)
  rw [← hb.productions, ← hb'.productions] at hσ
  exact ⟨σ, hs, hn, hσ⟩

end Rule

namespace Table

variable {g g' : Grammar}

/-- It does not matter in which order rules and alternatives are written and how alternatives are
shared out among rules of one left side. Only the productions are numbered in another way, and the
numbers in a verdict, which lists the productions of a cell that does not decide, tell them in
another order. -/
theorem declaration_order_irrelevant (T : Table g) (T' : Table g')
    (texts texts' : List (String × List String))
    (h : (Rule.ofTexts texts >>= Grammar.ofRules) = .ok g)
    (h' : (Rule.ofTexts texts' >>= Grammar.ofRules) = .ok g') (hs : g.start = g'.start)
    (hn : ∀ n, n ∈ g.nonTerminals ↔ n ∈ g'.nonTerminals)
    (ha : ∀ n ∈ g.nonTerminals, (Rule.alternativesIn texts n).Perm (Rule.alternativesIn texts' n)) :
    (∀ n, g.analyse.isNullable (.nonTerminal n) = g'.analyse.isNullable (.nonTerminal n) ∧
      g.analyse.firstOfSymbol (.nonTerminal n) = g'.analyse.firstOfSymbol (.nonTerminal n) ∧
      g.analyse.follow? n = g'.analyse.follow? n) ∧
    (∃ σ : Equiv.Perm Nat, (∀ i, g'.productions[σ i]? = g.productions[i]?) ∧
      (∀ n t, (T'.get n t).Perm ((T.get n t).map (Entry.renumber σ))) ∧
      ∀ tokens, (T.validate tokens).Renumbered σ (T'.validate tokens)) ∧
    T.isLL1 = T'.isLL1 ∧
    ∀ n t, (∃ c ∈ T.conflicts, c.nonTerminal = n ∧ c.lookahead = t) ↔
      ∃ c ∈ T'.conflicts, c.nonTerminal = n ∧ c.lookahead = t := by
  obtain ⟨σ, hσ⟩ := Rule.exists_renumbers_of_ofTexts h h' hs hn ha
  refine ⟨?_, ⟨σ, hσ.productions, ?_, ?_⟩, isLL1_eq hσ T T', ?_⟩
  · intro n
    have hfirst := hσ.firstOfSymbol_eq (.nonTerminal n)
    exact ⟨congrArg First.nullable hfirst, hfirst, hσ.follow?_eq n⟩
  · intro n t
    exact perm_get hσ T T' n t
  · intro tokens
    exact validate_renumbered hσ T T' tokens
  · intro n t
    exact conflict_iff hσ T T'

/-- With the rules of `A` among those of `S`, the productions of the cell of `S` for `c` have other
numbers and come in the other order. -/
theorem declaration_order_irrelevant_brackets : ∃ g',
    (Rule.ofTexts [("S", ["A b", "c", "c d"]), ("A", ["( S )", "ε"])] >>= Grammar.ofRules) =
      .ok brackets ∧
    (Rule.ofTexts [("S", ["c d"]), ("A", ["ε"]), ("S", ["c", "A b"]), ("A", ["( S )"])] >>=
      Grammar.ofRules) = .ok g' ∧
    brackets.table.validate ["c"] = .rejected (.ambiguousDecision "S" (.terminal "c") 0 [1, 2]) ∧
    g'.table.validate ["c"] = .rejected (.ambiguousDecision "S" (.terminal "c") 0 [0, 2]) ∧
    ∃ σ : Equiv.Perm Nat, (∀ i, g'.productions[σ i]? = brackets.productions[i]?) ∧
      (brackets.table.validate ["c"]).Renumbered σ (g'.table.validate ["c"]) := by
  refine ⟨_, rfl, rfl, ?_, ?_, ?_⟩
  · apply verdict_of_within (n := 2)
    decide +kernel
  · apply verdict_of_within (n := 2)
    decide +kernel
  · obtain ⟨-, ⟨σ, hid, -, hv⟩, -⟩ := declaration_order_irrelevant brackets.table (Grammar.table _)
      [("S", ["A b", "c", "c d"]), ("A", ["( S )", "ε"])]
      [("S", ["c d"]), ("A", ["ε"]), ("S", ["c", "A b"]), ("A", ["( S )"])] rfl rfl rfl
      (fun _ => Iff.rfl) (by decide +kernel)
    exact ⟨σ, hid, hv ["c"]⟩

end Table

end Predictive
