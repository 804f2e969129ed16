import Predictive.Proofs.Cells
import Predictive.Proofs.Prediction
import Predictive.Proofs.Representation

namespace Predictive

variable {g g' : Grammar} {s t : Symbol} {n : String} {p : Production}

namespace Grammar

theorem mem_alphabet_iff : t ∈ g.alphabet ↔ t = .endOfInput ∨ ∃ p ∈ g.productions, t ∈ p.right := by
  rw [alphabet, SymbolSet.mem_ofList, List.mem_cons, List.mem_flatMap]

end Grammar

namespace Analysis

/-- No set of the analysis leaves the symbols of the grammar. -/
theorem mem_alphabet_of_mem_predict (A : Analysis g) (hp : p ∈ g.productions)
    (ht : t ∈ A.predict p) : t ∈ g.alphabet := by
  obtain ht | ⟨-, ht⟩ := A.mem_predict.mp ht
  · apply First.ofSequence_subset A.firstRun.state.subset_alphabet _ t ht
    intro s hs
    exact Grammar.mem_alphabet hp hs
  · exact A.followRun.state.subset_alphabet p.left t ht

end Analysis

namespace Grammar.WellFormed

theorem terminal_mem (h : g.WellFormed) (hp : p ∈ g.productions) {a : String}
    (ha : .terminal a ∈ p.right) : a ∈ g.terminals := by
  rw [h.terminals_appear.mem_iff]
  exact List.mem_map.mpr ⟨(p.left, a), mem_terminalOccurrences.mpr ⟨p, hp, rfl, ha⟩, rfl⟩

theorem mem_columns_of_mem_alphabet (h : g.WellFormed) (T : Table g) (ht : t ∈ g.alphabet)
    (hin : t.isInput) : t ∈ T.columns := by
  rw [Table.columns, List.mem_append, List.mem_singleton]
  obtain rfl | ⟨q, hq, htq⟩ := mem_alphabet_iff.mp ht
  · exact .inr rfl
  · cases t with
    | terminal a => exact .inl (List.mem_map_of_mem (h.terminal_mem hq htq))
    | endOfInput => exact .inr rfl
    | nonTerminal _ | epsilon => cases hin

/-- A cell that holds a production stands in one of the columns. -/
theorem mem_columns (h : g.WellFormed) {T : Table g} (hne : T.get n t ≠ []) : t ∈ T.columns := by
  obtain ⟨e, he⟩ := List.exists_mem_of_ne_nil _ hne
  obtain ⟨hid, -, ht⟩ := T.mem_get.mp he
  apply h.mem_columns_of_mem_alphabet
  · exact Analysis.mem_alphabet_of_mem_predict _ (List.mem_of_getElem? hid) ht
  · exact Analysis.isInput_of_mem_predict ht

theorem mem_columns_of_mem_cells (h : g.WellFormed) {T : Table g} {c : Cell} (hc : c ∈ T.cells) :
    c.lookahead ∈ T.columns := by
  obtain ⟨-, he, hne⟩ := Table.mem_cells_iff.mp hc
  exact h.mem_columns (he ▸ hne)

/-- Terminals have different names, and none has that of the end mark. -/
theorem nodup_names_columns (h : g.WellFormed) (T : Table g) :
    (T.columns.map Symbol.name).Nodup := by
  have he : T.columns.map Symbol.name = g.terminals ++ [Symbol.endName] := by
    simp [Table.columns, Symbol.name, Function.comp_def]
  rw [he, List.nodup_append]
  refine ⟨h.terminals_appear.nodup, List.nodup_singleton _, ?_⟩
  intro a ha b hb
  rw [List.mem_singleton.mp hb]
  exact (h.names a (List.mem_append_right _ ha)).2.2

/-- A column is known by its name, be it of this grammar or of another. -/
theorem eq_of_name_eq (h : g.WellFormed) (h' : g'.WellFormed) {T : Table g} {T' : Table g'}
    (hs : s ∈ T.columns) (ht : t ∈ T'.columns) (he : s.name = t.name) : s = t := by
  have hend : ∀ {g : Grammar}, g.WellFormed → ∀ a ∈ g.terminals, a ≠ Symbol.endName :=
    fun h a ha => (h.names a (List.mem_append_right _ ha)).2.2
  rw [Table.columns, List.mem_append, List.mem_singleton, List.mem_map] at hs ht
  obtain ⟨a, ha, rfl⟩ | rfl := hs <;> obtain ⟨b, hb, rfl⟩ | rfl := ht
  · exact congrArg _ he
  · exact absurd he (hend h a ha)
  · exact absurd he.symm (hend h' b hb)
  · rfl

/-- What all names of the grammar have in common, the symbols of its right sides have. -/
theorem forall_name_right (h : g.WellFormed) {P : String → Prop}
    (hP : ∀ name ∈ g.nonTerminals ++ g.terminals, P name) (he : P Symbol.epsilonName)
    (hp : p ∈ g.productions) : ∀ s ∈ p.right, P s.name := by
  intro s hs
  cases s with
  | terminal a => exact hP a (List.mem_append_right _ (h.terminal_mem hp hs))
  | nonTerminal n => exact hP n (List.mem_append_left _ (h.nonTerminal_declared p hp n hs))
  | epsilon => exact he
  | endOfInput => exact absurd hs (endOfInput_notMem_right hp)

theorem isWord_name (h : g.WellFormed) (hp : p ∈ g.productions) (hs : s ∈ p.right) :
    IsWord s.name :=
  h.forall_name_right (fun name hn => (h.names name hn).1) (isWord_singleton (c := 'ε') (by decide))
    hp s hs

theorem forall_name_columns {T : Table g} {P : String → Prop} (hP : ∀ a ∈ g.terminals, P a)
    (he : P Symbol.endName) : ∀ t ∈ T.columns, P t.name := by
  rw [Table.columns, List.forall_mem_append, List.forall_mem_singleton, List.forall_mem_map]
  exact ⟨hP, he⟩

theorem isWord_name_of_mem_columns (h : g.WellFormed) {T : Table g} (ht : t ∈ T.columns) :
    IsWord t.name :=
  forall_name_columns (fun a ha => (h.names a (List.mem_append_right _ ha)).1)
    (isWord_singleton (c := '$') (by decide)) t ht

end Grammar.WellFormed

end Predictive
