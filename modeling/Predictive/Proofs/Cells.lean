import Mathlib.Data.List.Nodup
import Predictive.Table.Basic

namespace Predictive

/-- The productions of a non-terminal keep the order of the grammar. -/
theorem Grammar.pairwise_productionIds (g : Grammar) (n : String) :
    (g.productionIds n).Pairwise (· < ·) := by
  have he : g.productionIds n = (g.productions.zipIdx.filter (·.1.left = n)).map Prod.snd := by
    simp [productionIds, entriesOf, Function.comp_def]
  have hs : (g.productionIds n).Sublist (g.productions.zipIdx.map Prod.snd) := by
    rw [he]
    exact List.filter_sublist.map _
  rw [List.zipIdx_map_snd] at hs
  exact List.Pairwise.sublist hs List.pairwise_lt_range'

namespace Table

variable {g : Grammar} {T : Table g} {n : String} {t : Symbol} {c : Cell} {e e' : Entry}
  {p : Production}

theorem exists_entry (hp : p ∈ g.productions) (ht : t ∈ g.analyse.predict p) :
    ∃ e ∈ T.get p.left t, e.production = p := by
  obtain ⟨id, hid⟩ := List.getElem?_of_mem hp
  exact ⟨⟨id, p⟩, T.mem_get.mpr ⟨hid, rfl, ht⟩, rfl⟩

theorem pairwise_ids_get (T : Table g) (n : String) (t : Symbol) :
    ((T.get n t).map Entry.id).Pairwise (· < ·) := by
  rw [T.get_eq]
  split
  · have hs : (T.analysis.entriesOn n t).Sublist (g.entriesOf n) := List.filter_sublist
    exact (g.pairwise_productionIds n).sublist (hs.map Entry.id)
  · exact .nil

theorem nodup_get (T : Table g) (n : String) (t : Symbol) : (T.get n t).Nodup :=
  .of_map Entry.id ((T.pairwise_ids_get n t).imp Nat.ne_of_lt)

theorem mem_cells_iff_mem_row {entries : List Entry} : ⟨n, t, entries⟩ ∈ T.cells ↔
    n ∈ g.nonTerminals ∧ (t, entries) ∈ T.analysis.row n := by
  simp only [cells, T.rows_eq, Family.ofFn, List.mem_flatMap, List.mem_map]
  constructor
  · rintro ⟨_, ⟨m, hm, rfl⟩, q, hq, he⟩
    cases he
    exact ⟨hm, hq⟩
  · rintro ⟨hn, hq⟩
    exact ⟨_, ⟨n, hn, rfl⟩, (t, entries), hq, rfl⟩

theorem mem_cells_iff : c ∈ T.cells ↔ c.nonTerminal ∈ g.nonTerminals ∧
    c.entries = T.get c.nonTerminal c.lookahead ∧ c.entries ≠ [] := by
  obtain ⟨n, t, entries⟩ := c
  rw [mem_cells_iff_mem_row, Analysis.mem_row]
  apply and_congr_right
  intro hn
  rw [T.get_eq, if_pos hn]

theorem mem_conflicts_iff : c ∈ T.conflicts ↔ c.nonTerminal ∈ g.nonTerminals ∧
    c.entries = T.get c.nonTerminal c.lookahead ∧ 1 < c.entries.length := by
  simp only [conflicts, List.mem_filter, mem_cells_iff, Cell.isConflict, decide_eq_true_eq,
    and_assoc]
  constructor
  · rintro ⟨hn, he, -, hlen⟩
    exact ⟨hn, he, hlen⟩
  · rintro ⟨hn, he, hlen⟩
    have hne : c.entries ≠ [] := List.ne_nil_of_length_pos (by omega)
    exact ⟨hn, he, hne, hlen⟩

theorem isLL1_iff_conflicts : T.isLL1 ↔ T.conflicts = [] := by
  simp [isLL1, conflicts, List.filter_eq_nil_iff]

theorem ensureLL1_eq_ok_iff : T.ensureLL1 = .ok () ↔ T.isLL1 := by
  rw [isLL1_iff_conflicts, ensureLL1]
  cases T.conflicts <;> simp

theorem exists_conflict_iff :
    (∃ c ∈ T.conflicts, c.nonTerminal = n ∧ c.lookahead = t) ↔ 1 < (T.get n t).length := by
  constructor
  · rintro ⟨c, hc, rfl, rfl⟩
    obtain ⟨-, he, hlen⟩ := mem_conflicts_iff.mp hc
    rw [← he]
    exact hlen
  · intro hlen
    have hn : n ∈ g.nonTerminals := by
      obtain ⟨e, he⟩ := List.exists_mem_of_length_pos (Nat.zero_lt_of_lt hlen)
      obtain ⟨hid, rfl, -⟩ := T.mem_get.mp he
      exact g.left_declared _ (List.mem_of_getElem? hid)
    exact ⟨⟨n, t, T.get n t⟩, mem_conflicts_iff.mpr ⟨hn, rfl, hlen⟩, rfl, rfl⟩

theorem length_get_le (h : T.isLL1) (n : String) (t : Symbol) : (T.get n t).length ≤ 1 := by
  apply Nat.le_of_not_lt
  intro hlen
  obtain ⟨c, hc, -⟩ := exists_conflict_iff.mpr hlen
  rw [isLL1_iff_conflicts.mp h] at hc
  cases hc

theorem isLL1_iff_length_get_le : T.isLL1 ↔ ∀ n t, (T.get n t).length ≤ 1 := by
  refine ⟨length_get_le, ?_⟩
  intro h
  rw [isLL1_iff_conflicts, List.eq_nil_iff_forall_not_mem]
  intro c hc
  have hlen := exists_conflict_iff.mp ⟨c, hc, rfl, rfl⟩
  exact absurd (h _ _) (Nat.not_le_of_lt hlen)

/-- A cell of an LL(1) table that holds a production holds nothing else. -/
theorem get_eq_singleton (h : T.isLL1) (he : e ∈ T.get n t) : T.get n t = [e] := by
  obtain ⟨f, hf⟩ := List.length_eq_one_iff.mp
    (Nat.le_antisymm (length_get_le h n t) (List.length_pos_of_mem he))
  rw [hf, List.mem_singleton] at he
  rw [hf, he]

theorem eq_of_mem_get (h : T.isLL1) (he : e ∈ T.get n t) (he' : e' ∈ T.get n t) : e = e' := by
  rw [get_eq_singleton h he', List.mem_singleton] at he
  exact he

/-- Two productions of a conflict have different numbers. -/
theorem exists_ids_of_conflict (hc : c ∈ T.conflicts) : ∃ e ∈ c.entries, ∃ e' ∈ c.entries,
    e.id ≠ e'.id := by
  obtain ⟨-, he, hlen⟩ := mem_conflicts_iff.mp hc
  have hs := T.pairwise_ids_get c.nonTerminal c.lookahead
  rw [← he] at hs
  cases hl : c.entries with
  | nil => simp [hl] at hlen
  | cons e entries =>
    cases entries with
    | nil => simp [hl] at hlen
    | cons e' entries =>
      rw [hl] at hs
      have hlt : e.id < e'.id := by
        simp only [List.map_cons, List.pairwise_cons] at hs
        exact hs.1 e'.id List.mem_cons_self
      exact ⟨e, by simp, e', by simp, Nat.ne_of_lt hlt⟩

end Table

end Predictive
