import Predictive.Proofs.Completeness
import Predictive.Proofs.Inclusion
import Predictive.Proofs.Representation

namespace Predictive

namespace Grammar

/-- `g'` goes on after the productions of `g` with productions of other non-terminals. -/
structure Extends (g' g : Grammar) : Prop where
  start : g.start = g'.start
  nonTerminals : ∀ n ∈ g.nonTerminals, n ∈ g'.nonTerminals
  productions : ∃ more, g'.productions = g.productions ++ more ∧
    ∀ p ∈ more, p.left ∉ g.nonTerminals

/-- Non-terminals of `g` only. -/
def Declares (g : Grammar) (l : List Symbol) : Prop := ∀ n, .nonTerminal n ∈ l → n ∈ g.nonTerminals

variable {g g' : Grammar} {l m : List Symbol} {n : String} {t : Symbol} {p : Production} {id : Nat}

theorem declares_append : g.Declares (l ++ m) ↔ g.Declares l ∧ g.Declares m := by
  simp only [Declares, List.mem_append, or_imp, forall_and]

theorem Declares.tail {s : Symbol} (h : g.Declares (s :: l)) : g.Declares l :=
  fun n hn => h n (.tail s hn)

theorem declares_singleton (hn : n ∈ g.nonTerminals) : g.Declares [.nonTerminal n] := by
  intro m hm
  obtain rfl := Symbol.nonTerminal.inj (List.mem_singleton.mp hm)
  exact hn

theorem declares_body (hp : p ∈ g.productions) : g.Declares p.body := by
  intro n hn
  exact g.right_declared p hp _ (List.mem_of_mem_filter hn)

theorem declares_start (g : Grammar) : g.Declares [.nonTerminal g.start, .endOfInput] := by
  intro n hn
  simp only [List.mem_cons, Symbol.nonTerminal.injEq, reduceCtorEq, List.not_mem_nil, or_false] at hn
  exact hn ▸ g.start_declared

namespace Extends

theorem includedIn (h : g'.Extends g) : g.IncludedIn g' where
  start := h.start
  nonTerminals := h.nonTerminals
  productions p hp := by
    obtain ⟨more, he, -⟩ := h.productions
    rw [he]
    exact List.mem_append_left more hp

/-- The productions of a non-terminal keep their numbers, and no other ones are added. -/
theorem getElem?_iff (h : g'.Extends g) (hn : p.left ∈ g.nonTerminals) :
    g'.productions[id]? = some p ↔ g.productions[id]? = some p := by
  obtain ⟨more, he, hmore⟩ := h.productions
  rw [he]
  by_cases hid : id < g.productions.length
  · rw [List.getElem?_append_left hid]
  · have hle : g.productions.length ≤ id := Nat.le_of_not_lt hid
    rw [List.getElem?_append_right hle, List.getElem?_eq_none hle]
    refine iff_of_false ?_ nofun
    intro hp
    exact hmore p (List.mem_of_getElem? hp) hn

theorem mem_of_mem (h : g'.Extends g) (hp : p ∈ g'.productions) (hn : p.left ∈ g.nonTerminals) :
    p ∈ g.productions := by
  obtain ⟨id, hid⟩ := List.getElem?_of_mem hp
  exact List.mem_of_getElem? ((h.getElem?_iff hn).mp hid)

/-- The added productions cannot be applied where there are only non-terminals of `g`. -/
theorem produces (h : g'.Extends g) (hl : g.Declares l) (hs : g'.Produces l m) :
    g.Produces l m ∧ g.Declares m := by
  obtain ⟨p, hp, before, after, rfl, rfl⟩ := hs
  obtain ⟨hbefore, hafter⟩ := declares_append.mp hl
  have hmem : p ∈ g.productions := h.mem_of_mem hp (hafter p.left List.mem_cons_self)
  refine ⟨⟨p, hmem, before, after, rfl, rfl⟩, ?_⟩
  exact declares_append.mpr ⟨declares_append.mpr ⟨hbefore, declares_body hmem⟩, hafter.tail⟩

theorem derives (h : g'.Extends g) (hl : g.Declares l) (hd : g'.Derives l m) :
    g.Derives l m ∧ g.Declares m := by
  induction hd with
  | refl => exact ⟨.refl, hl⟩
  | tail _ hs ih =>
    obtain ⟨hs, hm⟩ := h.produces ih.2 hs
    exact ⟨ih.1.tail hs, hm⟩

theorem declares_withoutEpsilon (hl : g.Declares l) : g.Declares (withoutEpsilon l) :=
  fun n hn => hl n (List.mem_of_mem_filter hn)

theorem vanishes_iff (h : g'.Extends g) (hl : g.Declares l) : g.Vanishes l ↔ g'.Vanishes l := by
  refine ⟨h.includedIn.vanishes, ?_⟩
  rw [vanishes_iff_derives, vanishes_iff_derives]
  intro hd
  exact (h.derives (declares_withoutEpsilon hl) hd).1

theorem begins_iff (h : g'.Extends g) (hl : g.Declares l) : g.Begins t l ↔ g'.Begins t l := by
  refine ⟨h.includedIn.begins, ?_⟩
  rw [begins_iff_derives, begins_iff_derives]
  rintro ⟨ht, rest, hd⟩
  exact ⟨ht, rest, (h.derives (declares_withoutEpsilon hl) hd).1⟩

theorem firstOfSymbol_eq (h : g'.Extends g) (hn : n ∈ g.nonTerminals) :
    g.analyse.firstOfSymbol (.nonTerminal n) = g'.analyse.firstOfSymbol (.nonTerminal n) := by
  have hl := declares_singleton hn
  exact Analysis.firstOfSymbol_congr (h.vanishes_iff hl) fun _ => h.begins_iff hl

theorem sentence_iff (h : g'.Extends g) {tokens : List String} :
    g.Sentence tokens ↔ g'.Sentence tokens := by
  refine ⟨h.includedIn.sentence, ?_⟩
  intro hs
  rw [Sentence, ← h.start] at hs
  exact (h.derives (declares_singleton g.start_declared) hs).1

end Extends

end Grammar

namespace Rule

variable {rules more : List Rule} {texts extra : List (String × List String)} {g g' : Grammar}
  {r : Rule} {n : String}

/-- The left side and what the alternatives are made of. -/
def names (r : Rule) : List String := r.left :: r.alternatives.flatten

/-- Some left side or some alternative holds the name. -/
def Mentions (texts : List (String × List String)) (n : String) : Prop :=
  ∃ t ∈ texts, n ∈ words t.1.toList ∨ ∃ a ∈ t.2, n ∈ words a.toList

instance (texts : List (String × List String)) (n : String) : Decidable (Mentions texts n) :=
  inferInstanceAs (Decidable (∃ t ∈ texts, n ∈ words t.1.toList ∨ ∃ a ∈ t.2, n ∈ words a.toList))

theorem left_mem_of_denotes {t : String × List String} (h : Denotes t r) :
    r.left ∈ words t.1.toList := by
  rw [words_of_spells h.1]
  exact List.mem_cons_self

theorem mentions_of_denotes (h : List.Forall₂ Denotes texts rules) (hr : r ∈ rules)
    (hn : n ∈ r.names) : Mentions texts n := by
  obtain ⟨t, ht, hd⟩ := exists_of_forall₂ h hr
  obtain rfl | hn := List.mem_cons.mp hn
  · exact ⟨t, ht, .inl (left_mem_of_denotes hd)⟩
  · obtain ⟨tokens, htokens, hn⟩ := List.mem_flatten.mp hn
    obtain ⟨a, hmem, hs⟩ := exists_of_forall₂ hd.2 htokens
    refine ⟨t, ht, .inr ⟨a, hmem, ?_⟩⟩
    rw [words_of_spells hs]
    exact hn

/-- New left sides leave the symbols of the alternatives before them as they were. -/
theorem productions_append (hnew : ∀ c ∈ clauses rules, ∀ token ∈ c.2, token ∉ declared more) :
    productions (rules ++ more) = productions rules ++ (clauses more).map fun (left, tokens) =>
      ⟨left, tokens.map (symbolOf (declared (rules ++ more)))⟩ := by
  have hsymbol : ∀ c ∈ clauses rules, ∀ token ∈ c.2,
      symbolOf (declared (rules ++ more)) token = symbolOf (declared rules) token := by
    intro c hc token ht
    apply symbolOf_congr
    rw [mem_declared_append, or_iff_left (hnew c hc token ht)]
  have hclauses : clauses (rules ++ more) = clauses rules ++ clauses more := List.flatMap_append
  simp only [productions, hclauses, List.map_append]
  congr 1
  apply List.map_congr_left
  intro c hc
  exact congrArg (Production.mk c.1) (List.map_congr_left (hsymbol c hc))

theorem Builds.extends (hb : Builds rules g) (hb' : Builds (rules ++ more) g')
    (hnew : ∀ r ∈ rules, ∀ n ∈ r.names, n ∉ declared more) : g'.Extends g where
  start := by
    have hhead := hb'.start
    rw [declared, head?_eraseDups, List.map_append, List.head?_append, ← head?_eraseDups, ← declared,
      hb.start] at hhead
    exact Option.some.inj hhead
  nonTerminals n hn := by
    rw [hb.nonTerminals] at hn
    rw [hb'.nonTerminals, mem_declared_append]
    exact .inl hn
  productions := by
    have hnone : ∀ c ∈ clauses rules, ∀ token ∈ c.2, token ∉ declared more := by
      rintro ⟨left, tokens⟩ hc token ht
      obtain ⟨r, hr, -, htokens⟩ := mem_clauses.mp hc
      exact hnew r hr token (.tail _ (List.mem_flatten_of_mem htokens ht))
    have hsplit := productions_append hnone
    rw [← hb'.productions, ← hb.productions] at hsplit
    refine ⟨_, hsplit, ?_⟩
    intro p hp
    obtain ⟨⟨left, tokens⟩, hc, rfl⟩ := List.mem_map.mp hp
    obtain ⟨r, hr, rfl, -⟩ := mem_clauses.mp hc
    rw [hb.nonTerminals, mem_declared_iff]
    rintro ⟨q, hq, he⟩
    apply hnew q hq q.left List.mem_cons_self
    exact mem_declared_iff.mpr ⟨r, hr, he.symm⟩

theorem extends_of_ofTexts (h : (ofTexts texts >>= Grammar.ofRules) = .ok g)
    (h' : (ofTexts (texts ++ extra) >>= Grammar.ofRules) = .ok g')
    (hnew : ∀ t ∈ extra, ∀ n ∈ words t.1.toList, ¬ Mentions texts n) : g'.Extends g := by
  obtain ⟨rules, hrules, h⟩ := bind_eq_ok_iff.mp h
  obtain ⟨all, hall, h'⟩ := bind_eq_ok_iff.mp h'
  obtain ⟨first, more, rfl, hfirst, hmore⟩ := forall₂_append_left (ofTexts_eq_ok_iff.mp hall)
  obtain rfl : rules = first := by
    rw [ofTexts_eq_ok_iff.mpr hfirst] at hrules
    exact (Except.ok.inj hrules).symm
  apply (builds_of_ofRules h).extends (builds_of_ofRules h')
  intro q hq n hn hmore'
  obtain ⟨r, hr, rfl⟩ := mem_declared_iff.mp hmore'
  obtain ⟨t, ht, hd⟩ := exists_of_forall₂ hmore hr
  exact hnew t ht r.left (left_mem_of_denotes hd) (mentions_of_denotes hfirst hq hn)

end Rule

namespace Table

variable {g g' : Grammar} {T : Table g} {T' : Table g'} {n : String} {t : Symbol} {e : Entry}
  {c : Config}

/-- Cells may gain productions, for FOLLOW sets may have grown, but they lose none. -/
theorem mem_get_of_extends (h : g'.Extends g) (he : e ∈ T.get n t) : e ∈ T'.get n t := by
  obtain ⟨hid, -⟩ := T.mem_get.mp he
  have hleft := g.left_declared _ (List.mem_of_getElem? hid)
  exact h.includedIn.mem_get he ((h.getElem?_iff hleft).mpr hid)

/-- A cell that decides with the added productions decides the same without them, if the decision
leads to acceptance. -/
theorem get_eq_of_extends {stack input : List Symbol} {position : Nat} (h : g'.Extends g)
    (hf : g.FollowClosed (.nonTerminal n :: stack)) (hdecl : g.Declares (.nonTerminal n :: stack))
    (hi : ∀ s ∈ t :: input, s.isInput) (he : T'.get n t = [e])
    (ha : (T'.traceFrom ⟨.nonTerminal n :: stack, t :: input, position⟩).verdict = .accepted) :
    T.get n t = [e] := by
  -- The accepting run derives the input, and `g` derives all that is derived from its symbols.
  have hd := Grammar.derives_of_leftmost (T'.replays _ ha).1
  obtain ⟨e', he', -⟩ := exists_entry_of_derives (T := T) hf hi (h.derives hdecl hd).1
  have hall : ∀ f ∈ T.get n t, f = e := by
    intro f hf
    have hf' : f ∈ T'.get n t := mem_get_of_extends h hf
    rw [he, List.mem_singleton] at hf'
    exact hf'
  apply List.perm_singleton.mp
  apply (List.perm_ext_iff_of_nodup (T.nodup_get n t) (List.nodup_singleton e)).mpr
  intro f
  rw [List.mem_singleton]
  refine ⟨hall f, ?_⟩
  rintro rfl
  rw [← hall e' he']
  exact he'

/-- Both machines take the same steps: of the cells that the accepting run looks at, none has gained
a production. -/
theorem traceFrom_eq_of_extends {total : Nat} (h : g'.Extends g) (hc : c.Valid g total)
    (hdecl : g.Declares c.stack) (ha : (T'.traceFrom c).verdict = .accepted) :
    T.traceFrom c = T'.traceFrom c := by
  induction c using run_induction (T := T') with
  | halt c verdict hv =>
    rw [traceFrom_of_halt hv] at ha ⊢
    dsimp only at ha
    subst ha
    cases acts_of_action hv with
    | accept => exact traceFrom_of_halt (action_of_acts .accept)
  | matched c s hm ih =>
    have hrest := ha
    rw [(trace_of_moves (.matched hm)).1] at hrest
    cases acts_of_action hm with
    | @matched _ stack input position hs =>
      have hm' : T.action ⟨s :: stack, s :: input, position⟩ = .matched s :=
        action_of_acts (.matched hs)
      rw [traceFrom_of_matched hm, traceFrom_of_matched hm', ih (hc.advance hm') hdecl.tail hrest]
  | expand c e hx ih =>
    have hrest := ha
    rw [(trace_of_moves (.expand hx)).1] at hrest
    cases acts_of_action hx with
    | @expand n stack found input position _ he =>
      have he' : T.get n found = [e] := get_eq_of_extends h hc.followed hdecl hc.symbols he ha
      have hx' : T.action ⟨.nonTerminal n :: stack, found :: input, position⟩ = .expand e :=
        action_of_acts (.expand he')
      obtain ⟨hid, rfl⟩ := production_of_get he'
      have hstack : g.Declares (e.production.body ++ stack) :=
        Grammar.declares_append.mpr
          ⟨Grammar.declares_body (List.mem_of_getElem? hid), hdecl.tail⟩
      rw [traceFrom_of_expand hx, traceFrom_of_expand hx', ih (hc.expand hx') hstack hrest]

theorem trace_eq_of_extends (h : g'.Extends g) {tokens : List String}
    (ha : T'.validate tokens = .accepted) : T.trace tokens = T'.trace tokens := by
  rw [validate, trace, ← initial_congr h.start] at ha
  rw [trace, trace, ← initial_congr h.start]
  exact traceFrom_eq_of_extends h (valid_initial g tokens) g.declares_start ha

/-- Rules behind the others for names that these do not mention change nullable and FIRST nowhere,
can only enlarge FOLLOW, and cannot change what is accepted or how, but cells that they enlarge may
no longer decide. -/
theorem unmentioned_rules_harmless (T : Table g) (T' : Table g')
    (texts extra : List (String × List String))
    (h : (Rule.ofTexts texts >>= Grammar.ofRules) = .ok g)
    (h' : (Rule.ofTexts (texts ++ extra) >>= Grammar.ofRules) = .ok g')
    (hnew : ∀ t ∈ extra, ∀ n ∈ words t.1.toList, ¬ Rule.Mentions texts n) :
    (∀ n ∈ g.nonTerminals,
      g.analyse.isNullable (.nonTerminal n) = g'.analyse.isNullable (.nonTerminal n) ∧
      g.analyse.firstOfSymbol (.nonTerminal n) = g'.analyse.firstOfSymbol (.nonTerminal n) ∧
      ∃ set set', g.analyse.follow? n = some set ∧ g'.analyse.follow? n = some set' ∧ set ⊆ set') ∧
    ∀ tokens,
      (T'.validate tokens = .accepted →
        T.validate tokens = .accepted ∧ T.trace tokens = T'.trace tokens) ∧
      (T.validate tokens = .accepted → T'.validate tokens = .accepted ∨ ∃ n found position ids,
        T'.validate tokens = .rejected (.ambiguousDecision n found position ids)) := by
  have he : g'.Extends g := Rule.extends_of_ofTexts h h' hnew
  refine ⟨?_, ?_⟩
  · intro n hn
    have hfirst := he.firstOfSymbol_eq hn
    refine ⟨congrArg First.nullable hfirst, hfirst, g.analyse.follow n, g'.analyse.follow n, ?_, ?_, ?_⟩
    · exact Grammar.follow?_eq_some hn
    · exact Grammar.follow?_eq_some (he.nonTerminals n hn)
    · exact he.includedIn.follow_subset hn
  · intro tokens
    refine ⟨?_, ?_⟩
    · intro ha
      have ht : T.trace tokens = T'.trace tokens := trace_eq_of_extends he ha
      refine ⟨?_, ht⟩
      rw [validate, ht]
      exact ha
    · intro ha
      apply accepted_or_ambiguous
      exact he.sentence_iff.mp (sentence_of_accepted ha)

/-- Behind `A` there was only `c`, and then `b` as well. -/
theorem unmentioned_rules_harmless_behind : ∃ g g',
    (Rule.ofTexts [("S", ["A c"]), ("A", ["b", "ε"])] >>= Grammar.ofRules) = .ok g ∧
      (Rule.ofTexts [("S", ["A c"]), ("A", ["b", "ε"]), ("X", ["A b"])] >>= Grammar.ofRules) =
        .ok g' ∧
      g.table.validate ["b", "c"] = .accepted ∧
      g'.table.validate ["b", "c"] =
        .rejected (.ambiguousDecision "A" (.terminal "b") 0 [1, 2]) ∧
      g'.table.validate ["c"] = .accepted ∧ g.table.trace ["c"] = g'.table.trace ["c"] := by
  refine ⟨_, _, rfl, rfl, ?_, ?_, ?_⟩
  · apply verdict_of_within (n := 6)
    decide +kernel
  · apply verdict_of_within (n := 6)
    decide +kernel
  · obtain ⟨-, hrun⟩ := unmentioned_rules_harmless (Grammar.table _) (Grammar.table _)
      [("S", ["A c"]), ("A", ["b", "ε"])] [("X", ["A b"])] rfl rfl (by decide)
    apply (and_iff_left_of_imp fun ha => ((hrun ["c"]).1 ha).2).mpr
    apply verdict_of_within (n := 6)
    decide +kernel

end Table

end Predictive
