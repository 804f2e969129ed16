import Predictive.Proofs.Columns
import Predictive.Proofs.RoundTrip
import Predictive.Report.Table

namespace Predictive

theorem find?_eq_some_of_unique {α : Type} {p : α → Bool} {l : List α} {a : α} (ha : a ∈ l)
    (hp : p a) (hu : ∀ b ∈ l, p b → b = a) : l.find? p = some a := by
  cases h : l.find? p with
  | none => exact absurd hp (List.find?_eq_none.mp h a ha)
  | some b => rw [hu b (List.mem_of_find?_eq_some h) (List.find?_some h)]

theorem pairwise_idxOf {names : List String} (h : names.Nodup) :
    names.Pairwise fun n m => names.idxOf n < names.idxOf m := by
  have ho := (firstAppearances_eraseDups names).ordered
  rwa [eraseDups_of_nodup h] at ho

namespace Cell

/-- The first cell is in an earlier row, or further left in the same one. -/
def Precedes (g : Grammar) (c d : Cell) : Prop :=
  g.nonTerminals.idxOf c.nonTerminal < g.nonTerminals.idxOf d.nonTerminal ∨
    c.nonTerminal = d.nonTerminal ∧ c.lookahead < d.lookahead

def line (c : Cell) : String :=
  "(" ++ c.nonTerminal ++ ", " ++ c.lookahead.name ++ ") : " ++ ", ".intercalate c.texts

def conflictLine (c : Cell) : String := "conflict at " ++ c.line

end Cell

variable {g : Grammar} {T : Table g} {n : String} {t : Symbol}

theorem Analysis.pairwise_row (A : Analysis g) (n : String) :
    ((A.row n).map Prod.fst).Pairwise (· < ·) := by
  simp only [row, List.map_map, Function.comp_def, List.map_id']
  exact SymbolSet.sorted _

namespace Table

theorem pairwise_cells (T : Table g) (hn : g.nonTerminals.Nodup) :
    T.cells.Pairwise (Cell.Precedes g) := by
  have hc : T.cells = g.nonTerminals.flatMap fun n =>
      (T.analysis.row n).map fun x => ⟨n, x.1, x.2⟩ := by
    simp [cells, T.rows_eq, Family.ofFn, List.flatMap_map]
  rw [hc, List.pairwise_flatMap]
  refine ⟨fun n _ => ?_, ?_⟩
  · rw [List.pairwise_map]
    refine (List.pairwise_map.mp (T.analysis.pairwise_row n)).imp ?_
    intro a b h
    exact .inr ⟨rfl, h⟩
  · refine (pairwise_idxOf hn).imp ?_
    intro n m h c hc d hd
    obtain ⟨_, _, rfl⟩ := List.mem_map.mp hc
    obtain ⟨_, _, rfl⟩ := List.mem_map.mp hd
    exact .inl h

def rowReport (T : Table g) (n : String) : RowReport :=
  ⟨n, (T.analysis.row n).map fun (t, entries) => ⟨t.name, entries.map (·.production.text)⟩⟩

/-- What the report holds on one cell: nothing where no production applies. -/
def cellReport? (T : Table g) (n : String) (t : Symbol) : Option CellReport :=
  if T.get n t = [] then none else some ⟨t.name, (T.get n t).map (·.production.text)⟩

theorem rows_report (T : Table g) : T.report.rows = g.nonTerminals.map T.rowReport := by
  simp [report, T.rows_eq, Family.ofFn, rowReport]

theorem cellReport?_eq_some {c : CellReport} : T.cellReport? n t = some c ↔
    T.get n t ≠ [] ∧ c = ⟨t.name, (T.get n t).map (·.production.text)⟩ := by
  rw [cellReport?, Option.ite_none_left_eq_some, Option.some.injEq, @eq_comm _ c]

theorem mem_cells_rowReport (hn : n ∈ g.nonTerminals) {c : CellReport} :
    c ∈ (T.rowReport n).cells ↔ ∃ t, T.cellReport? n t = some c := by
  have hrow : ∀ t entries, (t, entries) ∈ T.analysis.row n ↔ entries = T.get n t ∧ entries ≠ [] := by
    intro t entries
    rw [Analysis.mem_row, T.get_eq, if_pos hn]
  simp only [rowReport, List.mem_map, Prod.exists, cellReport?_eq_some]
  refine ⟨?_, ?_⟩
  · rintro ⟨t, entries, hm, rfl⟩
    obtain ⟨rfl, hne⟩ := (hrow t entries).mp hm
    exact ⟨t, hne, rfl⟩
  · rintro ⟨t, hne, rfl⟩
    exact ⟨t, T.get n t, (hrow t _).mpr ⟨rfl, hne⟩, rfl⟩

/-- A row is searched by names, but no two of its columns have the same. -/
theorem cell?_rowReport (h : g.WellFormed) (hn : n ∈ g.nonTerminals) (ht : t ∈ T.columns) :
    (T.rowReport n).cell? t.name = T.cellReport? n t := by
  have hname : ∀ c ∈ (T.rowReport n).cells, c.lookahead = t.name → T.cellReport? n t = some c := by
    intro c hc he
    obtain ⟨s, hs⟩ := (mem_cells_rowReport hn).mp hc
    obtain ⟨hne, rfl⟩ := cellReport?_eq_some.mp hs
    rw [← h.eq_of_name_eq h (h.mem_columns hne) ht he]
    exact hs
  cases hc : T.cellReport? n t with
  | none =>
    rw [RowReport.cell?, List.find?_eq_none]
    intro c hm he
    rw [hname c hm (of_decide_eq_true he)] at hc
    cases hc
  | some c =>
    have hm : c ∈ (T.rowReport n).cells := (mem_cells_rowReport hn).mpr ⟨t, hc⟩
    apply find?_eq_some_of_unique hm
    · obtain ⟨-, rfl⟩ := cellReport?_eq_some.mp hc
      exact decide_eq_true rfl
    · intro d hd he
      have hd' := hname d hd (of_decide_eq_true he)
      rw [hc] at hd'
      exact (Option.some.inj hd').symm

theorem cell?_report (h : g.WellFormed) (hn : n ∈ g.nonTerminals) (ht : t ∈ T.columns) :
    T.report.cell? n t.name = T.cellReport? n t := by
  have hrow : T.report.rows.find? (·.name = n) = some (T.rowReport n) := by
    have hm : T.rowReport n ∈ g.nonTerminals.map T.rowReport := List.mem_map_of_mem hn
    rw [rows_report]
    apply find?_eq_some_of_unique hm
    · exact decide_eq_true rfl
    · intro r hr he
      obtain ⟨m, -, rfl⟩ := List.mem_map.mp hr
      obtain rfl : m = n := of_decide_eq_true he
      rfl
  rw [TableReport.cell?, hrow, Option.bind_some, cell?_rowReport h hn ht]

theorem line_report (h : g.WellFormed) (hn : n ∈ g.nonTerminals) (cellText : CellReport → String) :
    T.report.line cellText (T.rowReport n) =
      T.columns.map fun t => ((T.cellReport? n t).map cellText).getD "" := by
  have hc : T.report.columns = T.columns.map Symbol.name := rfl
  rw [TableReport.line, hc, List.map_map]
  apply List.map_congr_left
  intro t ht
  rw [Function.comp_apply, cell?_rowReport h hn ht]

theorem lookahead_mem_columns (h : g.WellFormed) {row : RowReport} (hr : row ∈ T.report.rows)
    {c : CellReport} (hc : c ∈ row.cells) :
    c.productions ≠ [] ∧ c.lookahead ∈ T.report.columns := by
  rw [rows_report] at hr
  obtain ⟨n, hn, rfl⟩ := List.mem_map.mp hr
  obtain ⟨t, ht⟩ := (mem_cells_rowReport hn).mp hc
  obtain ⟨hne, rfl⟩ := cellReport?_eq_some.mp ht
  exact ⟨by simpa using hne, List.mem_map_of_mem (h.mem_columns hne)⟩

/-- A line for each cell in order, one for each cell with several productions, and the verdict. -/
def reportLines (T : Table g) : List String :=
  T.cells.map Cell.line ++ (T.cells.filter fun c => 1 < c.entries.length).map Cell.conflictLine ++
    [if ∀ c ∈ T.cells, c.entries.length ≤ 1 then "LL(1)" else "not LL(1)"]

theorem isLL1_iff_forall : T.isLL1 ↔ ∀ c ∈ T.cells, c.entries.length ≤ 1 := by
  simp [isLL1, Cell.isConflict]

theorem cellReport?_of_mem_conflicts {c : Cell} (hc : c ∈ T.conflicts) :
    T.cellReport? c.nonTerminal c.lookahead = some ⟨c.lookahead.name, c.texts⟩ := by
  obtain ⟨-, he, hlen⟩ := mem_conflicts_iff.mp hc
  have hne : c.entries ≠ [] := List.ne_nil_of_length_pos (by omega)
  rw [cellReport?, ← he, if_neg hne]
  rfl

/-- The line of a conflict, for which the report looks up the cell by its names, repeats the line of
that cell. -/
theorem conflictLine_eq (h : g.WellFormed) {c : Cell} (hc : c ∈ T.conflicts) :
    "conflict at " ++ TableReport.cellLine c.nonTerminal c.lookahead.name
      (((T.report.cell? c.nonTerminal c.lookahead.name).map CellReport.plain).getD "") =
        c.conflictLine := by
  obtain ⟨hn, he, hlen⟩ := mem_conflicts_iff.mp hc
  have hne : T.get c.nonTerminal c.lookahead ≠ [] := by
    rw [← he]
    exact List.ne_nil_of_length_pos (by omega)
  rw [cell?_report h hn (h.mem_columns hne), cellReport?_of_mem_conflicts hc]
  rfl

theorem plain_report (h : g.WellFormed) (T : Table g) :
    T.report.plain = textLines T.reportLines := by
  have hcells : (T.report.rows.flatMap fun row =>
      row.cells.map fun c => TableReport.cellLine row.name c.lookahead c.plain) =
        T.cells.map Cell.line := by
    simp only [report, cells, List.flatMap_map, List.map_flatMap, List.map_map]
    rfl
  have hconflicts : (T.report.conflicts.map fun x => "conflict at " ++
      TableReport.cellLine x.1 x.2 (((T.report.cell? x.1 x.2).map CellReport.plain).getD "")) =
          (T.cells.filter fun c => 1 < c.entries.length).map Cell.conflictLine := by
    have hr : T.report.conflicts = T.conflicts.map fun c => (c.nonTerminal, c.lookahead.name) := rfl
    rw [hr, List.map_map]
    apply List.map_congr_left
    intro c hc
    exact conflictLine_eq h hc
  have hverdict : (if T.report.isLL1 then "LL(1)" else "not LL(1)") =
      if ∀ c ∈ T.cells, c.entries.length ≤ 1 then "LL(1)" else "not LL(1)" :=
    if_congr isLL1_iff_forall rfl rfl
  rw [TableReport.plain, hcells, hconflicts, hverdict]
  rfl

theorem newline_notMem_text (h : g.WellFormed) {p : Production} (hp : p ∈ g.productions) :
    '\n' ∉ p.text.toList := by
  have hl : '\n' ∉ p.left.toList :=
    newline_notMem_of_isWord (h.names p.left (List.mem_append_left _ (g.left_declared p hp))).1
  have hr : '\n' ∉ p.rightText.toList :=
    newline_notMem_intercalate (List.forall_mem_map.mpr fun s hs => h.isWord_name hp hs)
  simp [Production.text, hl, hr]

theorem newline_notMem_line (h : g.WellFormed) {c : Cell} (hc : c ∈ T.cells) :
    '\n' ∉ c.line.toList := by
  obtain ⟨hn, he, -⟩ := mem_cells_iff.mp hc
  have hname : '\n' ∉ c.nonTerminal.toList :=
    newline_notMem_of_isWord (h.names _ (List.mem_append_left _ hn)).1
  have hlookahead : '\n' ∉ c.lookahead.name.toList :=
    newline_notMem_of_isWord (h.isWord_name_of_mem_columns (h.mem_columns_of_mem_cells hc))
  have htexts : '\n' ∉ (", ".intercalate c.texts).toList := by
    apply notMem_intercalate (by simp)
    intro w hw
    obtain ⟨e, hm, rfl⟩ := List.mem_map.mp hw
    rw [he] at hm
    exact newline_notMem_text h (List.mem_of_getElem? (T.mem_get.mp hm).1)
  simp only [Cell.line, String.toList_append, List.mem_append, hname, hlookahead, htexts, or_false]
  decide

theorem lines_plain_report (h : g.WellFormed) (T : Table g) :
    lines T.report.plain.toList = T.reportLines.map String.toList := by
  rw [plain_report h]
  apply lines_textLines_of_notMem
  · simp [reportLines]
  · intro s hs
    rw [reportLines, List.mem_append, List.mem_append, List.mem_singleton] at hs
    obtain (hs | hs) | rfl := hs
    · obtain ⟨c, hc, rfl⟩ := List.mem_map.mp hs
      exact newline_notMem_line h hc
    · obtain ⟨c, hc, rfl⟩ := List.mem_map.mp hs
      have hl := newline_notMem_line h (List.mem_of_mem_filter hc)
      simp only [Cell.conflictLine, String.toList_append, List.mem_append, hl, or_false]
      decide
    · split <;> decide

/-- A table is reported by names and nothing is lost by that: the columns have different names, each
cell that holds a production is in one of them, and what is found under the names of a row and a
column is what the cell of that row and column holds. The plain report has a line for each such cell
in order, one for each cell with several productions that repeats the line of the cell, and the
verdict. -/
theorem report_exact (T : Table g) (h : (∃ text, Grammar.ofText text = .ok g) ∨
    ∃ texts, (Rule.ofTexts texts >>= Grammar.ofRules) = .ok g) :
    T.report.columns.Nodup ∧
    (∀ row ∈ T.report.rows, ∀ c ∈ row.cells,
      c.productions ≠ [] ∧ c.lookahead ∈ T.report.columns) ∧
    (∀ n ∈ g.nonTerminals, ∀ t ∈ T.columns, T.report.cell? n t.name = T.cellReport? n t) ∧
    (∀ cellText, T.report.rows.map (T.report.line cellText) = g.nonTerminals.map fun n =>
      T.columns.map fun t => ((T.cellReport? n t).map cellText).getD "") ∧
    (∀ c, c ∈ T.cells ↔ c.nonTerminal ∈ g.nonTerminals ∧
      c.entries = T.get c.nonTerminal c.lookahead ∧ c.entries ≠ []) ∧
    T.cells.Pairwise (Cell.Precedes g) ∧
    lines T.report.plain.toList = T.reportLines.map String.toList ∧
    ((lines T.report.plain.toList).getLast? = some "LL(1)".toList ↔
      ∀ c ∈ T.cells, c.entries.length ≤ 1) := by
  obtain ⟨rules, hb, hw⟩ := Grammar.exists_builds_of_read h
  have hg : g.WellFormed := hb.wellFormed hw
  refine ⟨hg.nodup_names_columns T, ?_, ?_, ?_, fun c => mem_cells_iff,
    T.pairwise_cells hg.nonTerminals_nodup, lines_plain_report hg T, ?_⟩
  · intro row hr c hc
    exact lookahead_mem_columns hg hr hc
  · intro n hn t ht
    exact cell?_report hg hn ht
  · intro cellText
    rw [rows_report, List.map_map]
    apply List.map_congr_left
    intro n hn
    exact line_report hg hn cellText
  · rw [lines_plain_report hg, List.getLast?_map, reportLines, List.getLast?_concat, Option.map_some,
      Option.some.injEq]
    split
    · next hall => exact iff_of_true rfl hall
    · next hall => exact iff_of_false (by decide) hall

theorem report_exact_brackets :
    Grammar.ofText "S -> A b | c | c d\nA -> ( S ) | ε" = .ok brackets ∧
      brackets.table.report.cell? "S" "c" = some ⟨"c", ["S -> c", "S -> c d"]⟩ ∧
      (brackets.table.report.cell? "A" "$").isNone ∧
      (lines brackets.table.report.plain.toList).getLast? ≠ some "LL(1)".toList := by
  have hread : Grammar.ofText "S -> A b | c | c d\nA -> ( S ) | ε" = .ok brackets := rfl
  obtain ⟨-, -, hcell, -, -, -, -, hlast⟩ := report_exact brackets.table (.inl ⟨_, hread⟩)
  have hs : brackets.table.get "S" (.terminal "c") =
      [⟨1, ⟨"S", [.terminal "c"]⟩⟩, ⟨2, ⟨"S", [.terminal "c", .terminal "d"]⟩⟩] := by
    decide +kernel
  have ha : brackets.table.get "A" .endOfInput = [] := by
    decide +kernel
  have hc : ¬ ∀ c ∈ brackets.table.cells, c.entries.length ≤ 1 := by
    decide +kernel
  refine ⟨hread, ?_, ?_, mt hlast.mp hc⟩
  · rw [show "c" = Symbol.name (.terminal "c") from rfl, hcell "S" (by decide) _ (by decide),
      cellReport?, hs]
    rfl
  · rw [show "$" = Symbol.name .endOfInput from rfl, hcell "A" (by decide) _ (by decide),
      cellReport?, ha]
    rfl

end Table

end Predictive
