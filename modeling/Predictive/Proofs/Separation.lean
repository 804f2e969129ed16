import Predictive.Proofs.TableReport

namespace Predictive

variable {g : Grammar} {T : Table g} {n : String} {t : Symbol} {id : Nat} {p q : Production}
  {c d : Cell}

namespace Grammar

/-- One symbol tells the two productions of the non-terminal apart: no symbol begins both right
sides, if the first can vanish then what follows the non-terminal does not begin the second, and
nothing follows it if both can vanish. -/
structure Separates (g : Grammar) (n : String) (p q : Production) : Prop where
  first : ∀ t ∈ (g.analyse.first p.right).symbols, t ∉ (g.analyse.first q.right).symbols
  first_follow : (g.analyse.first p.right).nullable →
    ∀ t ∈ (g.analyse.first q.right).symbols, t ∉ g.analyse.follow n
  follow : (g.analyse.first p.right).nullable → (g.analyse.first q.right).nullable →
    g.analyse.follow n = ∅

/-- Any two productions of a non-terminal, also if they only differ in their numbers, are told apart
by one symbol. -/
def Separated (g : Grammar) : Prop :=
  ∀ n, ∀ i ∈ g.productionIds n, ∀ j ∈ g.productionIds n, i ≠ j →
    ∀ p q, g.productions[i]? = some p → g.productions[j]? = some q → g.Separates n p q

theorem separates_of_disjoint (hp : p.left = n) (hq : q.left = n)
    (h : ∀ t ∈ g.analyse.predict p, t ∉ g.analyse.predict q) : g.Separates n p q := by
  simp only [Analysis.mem_predict, hp, hq] at h
  refine ⟨?_, ?_, ?_⟩
  · intro t hfirst hfirst'
    exact h t (.inl hfirst) (.inl hfirst')
  · intro hnull t hfirst hfollow
    exact h t (.inr ⟨hnull, hfollow⟩) (.inl hfirst)
  · intro hnull hnull'
    apply SymbolSet.ext
    intro t
    refine iff_of_false ?_ SymbolSet.notMem_empty
    intro hfollow
    exact h t (.inr ⟨hnull, hfollow⟩) (.inr ⟨hnull', hfollow⟩)

theorem disjoint_of_separates (hp : p.left = n) (hq : q.left = n) (h : g.Separates n p q)
    (h' : g.Separates n q p) : ∀ t ∈ g.analyse.predict p, t ∉ g.analyse.predict q := by
  intro t ht ht'
  rw [Analysis.mem_predict, hp] at ht
  rw [Analysis.mem_predict, hq] at ht'
  obtain hfirst | ⟨hnull, hfollow⟩ := ht <;> obtain hfirst' | ⟨hnull', hfollow'⟩ := ht'
  · exact h.first t hfirst hfirst'
  · exact h'.first_follow hnull' t hfirst hfollow'
  · exact h.first_follow hnull t hfirst' hfollow
  · rw [h.follow hnull hnull'] at hfollow
    exact SymbolSet.notMem_empty hfollow

end Grammar

namespace Table

theorem mem_ids_get : id ∈ (T.get n t).map Entry.id ↔
    ∃ p, g.productions[id]? = some p ∧ p.left = n ∧ t ∈ g.analyse.predict p := by
  rw [List.mem_map]
  constructor
  · rintro ⟨e, he, rfl⟩
    exact ⟨e.production, T.mem_get.mp he⟩
  · rintro ⟨p, hp⟩
    exact ⟨⟨id, p⟩, T.mem_get.mpr hp, rfl⟩

theorem separated_of_isLL1 (h : T.isLL1) : g.Separated := by
  intro n i hi j hj hne p q hp hq
  obtain ⟨p', hp', hpn⟩ := Grammar.mem_productionIds.mp hi
  obtain ⟨q', hq', hqn⟩ := Grammar.mem_productionIds.mp hj
  obtain rfl : p' = p := Option.some.inj (hp'.symm.trans hp)
  obtain rfl : q' = q := Option.some.inj (hq'.symm.trans hq)
  apply Grammar.separates_of_disjoint hpn hqn
  intro t ht ht'
  have he : ⟨i, p'⟩ ∈ T.get n t := T.mem_get.mpr ⟨hp, hpn, ht⟩
  have he' : ⟨j, q'⟩ ∈ T.get n t := T.mem_get.mpr ⟨hq, hqn, ht'⟩
  exact hne (congrArg Entry.id (eq_of_mem_get h he he'))

theorem isLL1_of_separated (h : g.Separated) : T.isLL1 := by
  rw [isLL1_iff_conflicts, List.eq_nil_iff_forall_not_mem]
  intro c hc
  obtain ⟨e, he, e', he', hne⟩ := exists_ids_of_conflict hc
  rw [(mem_conflicts_iff.mp hc).2.1] at he he'
  obtain ⟨hid, hl, ht⟩ := T.mem_get.mp he
  obtain ⟨hid', hl', ht'⟩ := T.mem_get.mp he'
  have hi : e.id ∈ g.productionIds c.nonTerminal := Grammar.mem_productionIds.mpr ⟨_, hid, hl⟩
  have hj : e'.id ∈ g.productionIds c.nonTerminal := Grammar.mem_productionIds.mpr ⟨_, hid', hl'⟩
  -- Both orders are needed: either of the two productions may be the one that vanishes.
  have hs := h _ _ hi _ hj hne _ _ hid hid'
  have hs' := h _ _ hj _ hi hne.symm _ _ hid' hid
  exact Grammar.disjoint_of_separates hl hl' hs hs' c.lookahead ht ht'

theorem isLL1_iff_separated : T.isLL1 ↔ g.Separated := ⟨separated_of_isLL1, isLL1_of_separated⟩

end Table

theorem Cell.Precedes.keys_ne (h : Cell.Precedes g c d) :
    (c.nonTerminal, c.lookahead) ≠ (d.nonTerminal, d.lookahead) := by
  intro he
  obtain ⟨hn, ht⟩ := Prod.mk.inj he
  obtain h | ⟨-, h⟩ := h
  · rw [hn] at h
    exact Nat.lt_irrefl _ h
  · rw [ht] at h
    exact Symbol.lt_irrefl _ h

namespace Table

/-- A cell holds, in ascending order, the numbers of the productions of its row whose right side can
begin with the lookahead, or can vanish in front of it. The cells that hold one are listed once
each, by rows and then by lookaheads, all in columns of the table; the conflicts are those with
several. All three checks find none just if the productions of every non-terminal are separated. -/
theorem contents_exact (T : Table g) (h : (∃ text, Grammar.ofText text = .ok g) ∨
    ∃ texts, (Rule.ofTexts texts >>= Grammar.ofRules) = .ok g) :
    (∀ n t, ((T.get n t).map Entry.id).Pairwise (· < ·) ∧
      ∀ id, id ∈ (T.get n t).map Entry.id ↔ id ∈ g.productionIds n ∧
        ∃ p, g.productions[id]? = some p ∧ (t ∈ (g.analyse.first p.right).symbols ∨
          (g.analyse.first p.right).nullable ∧ t ∈ g.analyse.follow n)) ∧
    (∀ c, c ∈ T.cells ↔ c.nonTerminal ∈ g.nonTerminals ∧
      c.entries = T.get c.nonTerminal c.lookahead ∧ c.entries ≠ []) ∧
    (∀ c ∈ T.cells, c.lookahead ∈ T.columns) ∧
    T.cells.Pairwise (Cell.Precedes g) ∧
    (T.cells.map fun c => (c.nonTerminal, c.lookahead)).Nodup ∧
    T.conflicts = T.cells.filter (fun c => 2 ≤ c.ids.length) ∧
    (T.isLL1 ↔ g.Separated) ∧ (T.conflicts = [] ↔ g.Separated) ∧
    (T.ensureLL1 = .ok () ↔ g.Separated) := by
  have hg := Grammar.wellFormed_of_read h
  have hsorted := T.pairwise_cells hg.nonTerminals_nodup
  refine ⟨?_, ?_, ?_, hsorted, ?_, ?_, isLL1_iff_separated, ?_, ?_⟩
  · intro n t
    refine ⟨T.pairwise_ids_get n t, ?_⟩
    intro id
    rw [mem_ids_get, Grammar.mem_productionIds]
    constructor
    · rintro ⟨p, hp, rfl, ht⟩
      exact ⟨⟨p, hp, rfl⟩, p, hp, g.analyse.mem_predict.mp ht⟩
    · rintro ⟨⟨p, hp, rfl⟩, q, hq, ht⟩
      obtain rfl : p = q := Option.some.inj (hp.symm.trans hq)
      exact ⟨p, hp, rfl, g.analyse.mem_predict.mpr ht⟩
  · intro c
    exact mem_cells_iff
  · intro c hc
    obtain ⟨-, he, hne⟩ := mem_cells_iff.mp hc
    exact hg.mem_columns (he ▸ hne)
  · rw [List.Nodup, List.pairwise_map]
    exact hsorted.imp Cell.Precedes.keys_ne
  · apply List.filter_congr
    intro c _
    rw [Cell.isConflict, Cell.ids, List.length_map]
    rfl
  · rw [← isLL1_iff_conflicts]
    exact isLL1_iff_separated
  · rw [ensureLL1_eq_ok_iff]
    exact isLL1_iff_separated

theorem contents_exact_brackets :
    Grammar.ofText "S -> A b | c | c d\nA -> ( S ) | ε" = .ok brackets ∧
      brackets.table.cells.map (fun c => (c.nonTerminal, c.lookahead, c.ids)) =
        [("S", .terminal "(", [0]), ("S", .terminal "b", [0]), ("S", .terminal "c", [1, 2]),
          ("A", .terminal "(", [3]), ("A", .terminal "b", [4])] ∧
      (brackets.table.cells.map fun c => (c.nonTerminal, c.lookahead)).Nodup ∧
      ¬ brackets.Separated := by
  have hread : Grammar.ofText "S -> A b | c | c d\nA -> ( S ) | ε" = .ok brackets := rfl
  obtain ⟨-, -, -, -, hnodup, -, hll, -⟩ := contents_exact brackets.table (.inl ⟨_, hread⟩)
  have hcells : brackets.table.cells.map (fun c => (c.nonTerminal, c.lookahead, c.ids)) =
      [("S", .terminal "(", [0]), ("S", .terminal "b", [0]), ("S", .terminal "c", [1, 2]),
        ("A", .terminal "(", [3]), ("A", .terminal "b", [4])] := by
    decide +kernel
  have hconflict : ¬ brackets.table.isLL1 := by
    decide +kernel
  exact ⟨hread, hcells, hnodup, mt hll.mpr hconflict⟩

end Table

end Predictive
