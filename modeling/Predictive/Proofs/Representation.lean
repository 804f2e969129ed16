import Mathlib.Data.List.TakeWhile
import Predictive.Proofs.Building
import Predictive.Proofs.Cells
import Predictive.Proofs.Reading

namespace Predictive

namespace Grammar

/-- The terminals on right sides as they occur, each with the left side. -/
def terminalOccurrences (g : Grammar) : List (String × String) :=
  g.productions.flatMap fun p => p.right.filterMap fun
    | .terminal t => some (p.left, t)
    | _ => none

/-- The terminals that begin with one of the letters `A` to `Z`, as they occur. -/
def suspectOccurrences (g : Grammar) : List Warning :=
  (g.terminalOccurrences.filter fun (_, t) => t.toList.head?.any fun c => 'A' ≤ c ∧ c ≤ 'Z').map
    fun (left, t) => ⟨left, t⟩

/-- How the parts of a grammar hang together. -/
structure WellFormed (g : Grammar) : Prop where
  nonTerminals_nodup : g.nonTerminals.Nodup
  start_first : g.nonTerminals.head? = some g.start
  ids_partition : (g.nonTerminals.flatMap g.productionIds).Perm (List.range g.productions.length)
  ids_ascending : ∀ n, (g.productionIds n).Pairwise (· < ·)
  mem_ids : ∀ n id, id ∈ g.productionIds n ↔ ∃ p, g.productions[id]? = some p ∧ p.left = n
  right_shape : ∀ p ∈ g.productions, p.right = [.epsilon] ∨
    p.right ≠ [] ∧ ∀ s ∈ p.right, (∃ t, s = .terminal t) ∨ ∃ n, s = .nonTerminal n
  nonTerminal_declared : ∀ p ∈ g.productions, ∀ n, .nonTerminal n ∈ p.right → n ∈ g.nonTerminals
  terminal_undeclared : ∀ p ∈ g.productions, ∀ t, .terminal t ∈ p.right → t ∉ g.nonTerminals
  terminals_appear : FirstAppearances g.terminals (g.terminalOccurrences.map Prod.snd)
  warnings_appear : FirstAppearances g.warnings g.suspectOccurrences
  names : ∀ name ∈ g.nonTerminals ++ g.terminals,
    IsWord name ∧ name ≠ Symbol.epsilonName ∧ name ≠ Symbol.endName

variable {g : Grammar} {n : String} {id : Nat}

theorem mem_productionIds :
    id ∈ g.productionIds n ↔ ∃ p, g.productions[id]? = some p ∧ p.left = n := by
  simp only [productionIds, List.mem_map, mem_entriesOf]
  constructor
  · rintro ⟨e, he, rfl⟩
    exact ⟨e.production, he⟩
  · rintro ⟨p, hp⟩
    exact ⟨⟨id, p⟩, hp, rfl⟩

theorem mem_terminalOccurrences {left t : String} : (left, t) ∈ g.terminalOccurrences ↔
    ∃ p ∈ g.productions, p.left = left ∧ .terminal t ∈ p.right := by
  rw [terminalOccurrences, List.mem_flatMap]
  apply exists_congr
  intro p
  apply and_congr_right
  intro _
  rw [List.mem_filterMap]
  constructor
  · rintro ⟨s, hs, he⟩
    split at he
    · obtain ⟨rfl, rfl⟩ := Prod.mk.inj (Option.some.inj he)
      exact ⟨rfl, hs⟩
    · cases he
  · rintro ⟨rfl, ht⟩
    exact ⟨_, ht, rfl⟩

/-- A production has one left side, and that is declared. -/
theorem perm_productionIds (hn : g.nonTerminals.Nodup) :
    (g.nonTerminals.flatMap g.productionIds).Perm (List.range g.productions.length) := by
  have hids : ∀ n, (g.productionIds n).Nodup :=
    fun n => (g.pairwise_productionIds n).imp Nat.ne_of_lt
  have hdisj : g.nonTerminals.Pairwise fun n m => (g.productionIds n).Disjoint (g.productionIds m) := by
    refine hn.imp fun {n m} hne id hid hid' => hne ?_
    obtain ⟨p, hp, rfl⟩ := mem_productionIds.mp hid
    obtain ⟨p', hp', rfl⟩ := mem_productionIds.mp hid'
    rw [hp] at hp'
    rw [Option.some.inj hp']
  have hnodup : (g.nonTerminals.flatMap g.productionIds).Nodup :=
    List.nodup_flatMap.mpr ⟨fun n _ => hids n, hdisj⟩
  apply (List.perm_ext_iff_of_nodup hnodup List.nodup_range).mpr
  intro id
  rw [List.mem_flatMap, List.mem_range]
  constructor
  · rintro ⟨n, -, hid⟩
    obtain ⟨p, hp, -⟩ := mem_productionIds.mp hid
    exact (List.getElem?_eq_some_iff.mp hp).1
  · intro hid
    have hp : g.productions[id]? = some g.productions[id] := List.getElem?_eq_getElem hid
    exact ⟨_, g.left_declared _ (List.getElem_mem hid), mem_productionIds.mpr ⟨_, hp, rfl⟩⟩

end Grammar

namespace Rule

variable {rules : List Rule} {g : Grammar} {names tokens : List String} {token : String}

theorem symbolOf_of_mem (h : token ≠ Symbol.epsilonName) (hn : token ∈ names) :
    symbolOf names token = .nonTerminal token := by
  rw [symbolOf, if_neg h, if_pos hn]

theorem symbolOf_of_notMem (h : token ≠ Symbol.epsilonName) (hn : token ∉ names) :
    symbolOf names token = .terminal token := by
  rw [symbolOf, if_neg h, if_neg hn]

theorem eq_of_symbolOf {t : String} (h : symbolOf names token = .terminal t) : token = t := by
  unfold symbolOf at h
  split at h
  · cases h
  · split at h
    · cases h
    · exact Symbol.terminal.inj h

/-- In alternatives without a fault every token is looked up, only `ε` alone is not. -/
theorem tokensRead_of_acceptable {cs : List (String × List String)}
    (h : ∀ c ∈ cs, Acceptable c.2) : tokensRead cs =
      cs.flatMap fun (left, tokens) =>
        (if Symbol.epsilonName ∈ tokens then [] else tokens).map (left, ·) := by
  induction cs with
  | nil => rfl
  | cons c cs ih =>
    obtain ⟨left, tokens⟩ := c
    have ⟨hc, hcs⟩ := List.forall_mem_cons.mp h
    have htake : (if Symbol.epsilonName ∈ tokens then []
        else tokens.takeWhile (· ≠ Symbol.endName)) =
        if Symbol.epsilonName ∈ tokens then [] else tokens := by
      split
      · rfl
      · next he =>
        obtain rfl | ⟨-, -, hend⟩ := hc
        · exact absurd List.mem_cons_self he
        · rw [List.takeWhile_eq_self_iff]
          intro token ht
          simpa using fun e : token = Symbol.endName => hend (e ▸ ht)
    have hf : fault? left tokens = none := fault?_eq_none_iff.mpr hc
    rw [tokensRead, htake, hf, List.flatMap_cons, ← ih hcs]
    rfl

theorem filterMap_symbolOf (left : String) (h : Acceptable tokens) :
    ((tokens.map (symbolOf names)).filterMap fun
      | .terminal t => some (left, t)
      | _ => none) =
      ((if Symbol.epsilonName ∈ tokens then [] else tokens).map (left, ·)).filter
        fun (_, token) => token ∉ names := by
  obtain rfl | ⟨-, he, -⟩ := h
  · rfl
  · rw [if_neg he]
    induction tokens with
    | nil => rfl
    | cons token tokens ih =>
      have ⟨hne, he⟩ := not_or.mp (List.mem_cons.not.mp he)
      rw [List.map_cons, List.map_cons, List.filterMap_cons, ih he]
      by_cases ht : token ∈ names
      · rw [symbolOf_of_mem (Ne.symm hne) ht, List.filter_cons_of_neg (by simpa using ht)]
      · rw [symbolOf_of_notMem (Ne.symm hne) ht, List.filter_cons_of_pos (by simpa using ht)]

namespace Builds

theorem terminalOccurrences_eq (h : Builds rules g) : g.terminalOccurrences =
    (tokensRead (clauses rules)).filter fun (_, token) => token ∉ declared rules := by
  rw [Grammar.terminalOccurrences, h.productions, tokensRead_of_acceptable h.acceptable,
    List.filter_flatMap, Rule.productions, List.flatMap_map]
  apply List.flatMap_congr
  rintro ⟨left, tokens⟩ hc
  exact filterMap_symbolOf left (h.acceptable _ hc)

theorem terminals_appear (h : Builds rules g) :
    FirstAppearances g.terminals (g.terminalOccurrences.map Prod.snd) := by
  have ht : g.terminals = (g.terminalOccurrences.map Prod.snd).eraseDups := by
    rw [h.terminals, h.terminalOccurrences_eq, Rule.terminals, List.filter_map]
    rfl
  rw [ht]
  exact firstAppearances_eraseDups _

theorem warnings_appear (h : Builds rules g) :
    FirstAppearances g.warnings g.suspectOccurrences := by
  have hw : g.warnings = g.suspectOccurrences.eraseDups := by
    rw [h.warnings, warnings_eq h.unreserved, Grammar.suspectOccurrences, h.terminalOccurrences_eq,
      List.filter_filter]
    congr 2
    apply List.filter_congr
    rintro ⟨left, token⟩ _
    exact Bool.and_comm _ _
  rw [hw]
  exact firstAppearances_eraseDups _

theorem right_shape (h : Builds rules g) : ∀ p ∈ g.productions, p.right = [.epsilon] ∨
    p.right ≠ [] ∧ ∀ s ∈ p.right, (∃ t, s = .terminal t ∧ t ∉ g.nonTerminals) ∨
      ∃ n, s = .nonTerminal n ∧ n ∈ g.nonTerminals := by
  rw [h.productions, h.nonTerminals]
  intro p hp
  obtain ⟨⟨left, tokens⟩, hc, rfl⟩ := List.mem_map.mp hp
  obtain rfl | ⟨hne, he, -⟩ : Acceptable tokens := h.acceptable _ hc
  · exact .inl rfl
  · refine .inr ⟨by simpa using hne, fun s hs => ?_⟩
    obtain ⟨token, ht, rfl⟩ := List.mem_map.mp hs
    have htoken : token ≠ Symbol.epsilonName := fun e => he (e ▸ ht)
    by_cases hn : token ∈ declared rules
    · exact .inr ⟨token, symbolOf_of_mem htoken hn, hn⟩
    · exact .inl ⟨token, symbolOf_of_notMem htoken hn, hn⟩

/-- A terminal is a token of some rule. -/
theorem exists_token (h : Builds rules g) {t : String} (ht : t ∈ g.terminals) :
    ∃ r ∈ rules, ∃ tokens ∈ r.alternatives, t ∈ tokens ∧ t ≠ Symbol.epsilonName ∧
      t ≠ Symbol.endName := by
  obtain ⟨⟨left, t⟩, hoccurs, rfl⟩ := List.mem_map.mp ((h.terminals_appear.mem_iff t).mp ht)
  obtain ⟨p, hp, -, hright⟩ := Grammar.mem_terminalOccurrences.mp hoccurs
  rw [h.productions] at hp
  obtain ⟨⟨left, tokens⟩, hc, rfl⟩ := List.mem_map.mp hp
  obtain ⟨token, htoken, he⟩ := List.mem_map.mp hright
  obtain rfl : token = t := eq_of_symbolOf he
  obtain ⟨r, hr, -, htokens⟩ := mem_clauses.mp hc
  refine ⟨r, hr, tokens, htokens, htoken, ?_⟩
  obtain rfl | ⟨-, heps, hend⟩ : Acceptable tokens := h.acceptable _ hc
  · obtain rfl := List.mem_singleton.mp htoken
    cases he
  · exact ⟨fun e => heps (e ▸ htoken), fun e => hend (e ▸ htoken)⟩

theorem isWord_of_mem (h : Builds rules g) (hw : ∀ r ∈ rules, Worded r) :
    ∀ name ∈ g.nonTerminals ++ g.terminals,
      IsWord name ∧ name ≠ Symbol.epsilonName ∧ name ≠ Symbol.endName := by
  intro name hname
  obtain hname | hname := List.mem_append.mp hname
  · rw [h.nonTerminals] at hname
    have hres := h.unreserved name hname
    obtain ⟨r, hr, rfl⟩ := List.mem_map.mp (List.mem_eraseDups.mp hname)
    exact ⟨(hw r hr).1, by simpa [isReserved] using hres⟩
  · obtain ⟨r, hr, tokens, htokens, htoken, hreserved⟩ := h.exists_token hname
    exact ⟨(hw r hr).2 tokens htokens name htoken, hreserved⟩

/-- Rules of words build a well-formed grammar. -/
theorem wellFormed (h : Builds rules g) (hw : ∀ r ∈ rules, Worded r) : g.WellFormed where
  nonTerminals_nodup := h.nonTerminals ▸ nodup_eraseDups _
  start_first := h.nonTerminals ▸ h.start
  ids_partition := Grammar.perm_productionIds (h.nonTerminals ▸ nodup_eraseDups _)
  ids_ascending := g.pairwise_productionIds
  mem_ids _ _ := Grammar.mem_productionIds
  right_shape p hp := by
    refine (h.right_shape p hp).imp_right fun ⟨hne, hs⟩ => ⟨hne, fun s hmem => ?_⟩
    exact (hs s hmem).imp (fun ⟨t, ht⟩ => ⟨t, ht.1⟩) (fun ⟨n, hn⟩ => ⟨n, hn.1⟩)
  nonTerminal_declared p hp n hn := g.right_declared p hp _ hn
  terminal_undeclared p hp t ht := by
    obtain he | ⟨-, hs⟩ := h.right_shape p hp
    · simp [he] at ht
    · simpa using hs _ ht
  terminals_appear := h.terminals_appear
  warnings_appear := h.warnings_appear
  names := h.isWord_of_mem hw

end Builds

theorem worded_of_ofText {text : String} (h : ofText text = .ok rules) :
    ∀ r ∈ rules, Worded r := by
  intro r hr
  exact ((ofText_eq_ok_iff.mp h).wellFormed nofun r hr).1

theorem worded_of_ofTexts {texts : List (String × List String)} (h : ofTexts texts = .ok rules) :
    ∀ r ∈ rules, Worded r := by
  intro r hr
  obtain ⟨text, -, hl, ha⟩ := exists_of_forall₂ (ofTexts_eq_ok_iff.mp h) hr
  refine ⟨hl.isWord _ List.mem_cons_self, fun tokens ht => ?_⟩
  obtain ⟨a, -, hs⟩ := exists_of_forall₂ ha ht
  exact hs.isWord

end Rule

namespace Grammar

variable {g : Grammar}

/-- Rules of words stand behind every grammar that was read. -/
theorem exists_builds_of_read (h : (∃ text, Grammar.ofText text = .ok g) ∨
    ∃ texts, (Rule.ofTexts texts >>= Grammar.ofRules) = .ok g) :
    ∃ rules, Rule.Builds rules g ∧ ∀ r ∈ rules, Rule.Worded r := by
  obtain ⟨text, h⟩ | ⟨texts, h⟩ := h
  · obtain ⟨rules, hrules, h⟩ := bind_eq_ok_iff.mp h
    exact ⟨rules, Rule.builds_of_ofRules h, Rule.worded_of_ofText hrules⟩
  · obtain ⟨rules, hrules, h⟩ := bind_eq_ok_iff.mp h
    exact ⟨rules, Rule.builds_of_ofRules h, Rule.worded_of_ofTexts hrules⟩

/-- A grammar that was read, be it from lines or from pairs of texts, is well formed. -/
theorem wellFormed_of_read (h : (∃ text, Grammar.ofText text = .ok g) ∨
    ∃ texts, (Rule.ofTexts texts >>= Grammar.ofRules) = .ok g) : g.WellFormed := by
  obtain ⟨text, h⟩ | ⟨texts, h⟩ := h
  · obtain ⟨rules, hrules, h⟩ := bind_eq_ok_iff.mp h
    exact (Rule.builds_of_ofRules h).wellFormed (Rule.worded_of_ofText hrules)
  · obtain ⟨rules, hrules, h⟩ := bind_eq_ok_iff.mp h
    exact (Rule.builds_of_ofRules h).wellFormed (Rule.worded_of_ofTexts hrules)

theorem wellFormed_of_read_both : ∃ g,
    Grammar.ofText "S -> A b | B a\r\n\n   | b\nA -> a\nS -> ε" = .ok g ∧
    (Rule.ofTexts [(" S", ["A b", " B  a ", "b"]), ("A", ["a"]), ("S", ["ε"])] >>= Grammar.ofRules) =
      .ok g ∧
    g.terminals = ["b", "B", "a"] ∧ g.warnings = [⟨"S", "B"⟩] ∧ g.productionIds "S" = [0, 1, 2, 4] ∧
    g.WellFormed := by
  refine ⟨_, rfl, rfl, rfl, rfl, rfl, ?_⟩
  exact wellFormed_of_read (.inl ⟨"S -> A b | B a\r\n\n   | b\nA -> a\nS -> ε", rfl⟩)

end Grammar

end Predictive
