import Predictive.Proofs.Alignment
import Predictive.Proofs.Steps
import Predictive.Proofs.TableReport
import Predictive.Report.Validation

namespace Predictive

variable {g : Grammar} {T : Table g} {c c' : Config} {a : Action} {p : Production} {n : String}
  {t : Symbol} {reason : Rejection} {tokens : List String}

namespace Grammar.WellFormed

theorem tidy_text (h : g.WellFormed) (hp : p ∈ g.productions) : Tidy p.text := by
  have hleft : IsWord p.left := (h.names p.left (List.mem_append_left _ (g.left_declared p hp))).1
  have hline := Table.newline_notMem_text h hp
  rw [Production.text, String.append_assoc] at hline ⊢
  apply (Tidy.of_isWord hleft).append hleft.1
  intro hn
  rw [String.toList_append] at hline
  exact hline (List.mem_append_right _ hn)

end Grammar.WellFormed

theorem Production.text_ne_empty (p : Production) : p.text ≠ "" := by
  simp [text]

namespace Table

/-- The texts of the productions that apply. -/
def cellText (T : Table g) (n : String) (t : Symbol) : String :=
  ", ".intercalate ((T.get n t).map (·.production.text))

theorem cellText_eq_empty_iff : T.cellText n t = "" ↔ T.get n t = [] := by
  rw [cellText]
  cases hg : T.get n t with
  | nil => simp
  | cons e entries => cases entries <;> simp [Production.text_ne_empty]

theorem getD_cellReport? (T : Table g) (n : String) (t : Symbol) :
    ((T.cellReport? n t).map CellReport.plain).getD "" = T.cellText n t := by
  rw [cellReport?]
  split
  · next h => rw [Option.map_none, Option.getD_none, cellText_eq_empty_iff.mpr h]
  · rfl

theorem tidy_cellText (h : g.WellFormed) (n : String) (t : Symbol) : Tidy (T.cellText n t) := by
  apply Tidy.intercalate (by decide)
  intro w hw
  obtain ⟨e, he, rfl⟩ := List.mem_map.mp hw
  have hp := List.mem_of_getElem? (T.mem_get.mp he).1
  exact ⟨h.tidy_text hp, Production.text_ne_empty _⟩

/-- The rows of the grid: the columns, and the cells of each non-terminal under them. -/
theorem grid_eq (h : g.WellFormed) (T : Table g) : T.report.grid =
    aligned (("" :: T.columns.map Symbol.name) ::
      g.nonTerminals.map fun n => n :: T.columns.map (T.cellText n)) := by
  have hrows : (T.report.rows.map fun row => row.name :: T.report.line CellReport.plain row) =
      g.nonTerminals.map fun n => n :: T.columns.map (T.cellText n) := by
    rw [rows_report, List.map_map]
    apply List.map_congr_left
    intro n hn
    rw [Function.comp_apply, line_report h hn]
    simp only [getD_cellReport?]
    rfl
  rw [TableReport.grid, hrows]
  rfl

theorem showsRows_grid (h : g.WellFormed) (T : Table g) :
    ShowsRows (lines T.report.grid.toList) (("" :: T.columns.map Symbol.name) ::
      g.nonTerminals.map fun n => n :: T.columns.map (T.cellText n)) := by
  have hempty : Tidy "" := ⟨by decide, by decide⟩
  rw [grid_eq h]
  apply showsRows_aligned (n := T.columns.length + 1) (List.cons_ne_nil _ _)
  · refine List.forall_mem_cons.mpr ⟨by simp, ?_⟩
    exact List.forall_mem_map.mpr fun n _ => by simp
  · refine List.forall_mem_cons.mpr ⟨List.forall_mem_cons.mpr ⟨hempty, ?_⟩, ?_⟩
    · exact List.forall_mem_map.mpr fun t ht => .of_isWord (h.isWord_name_of_mem_columns ht)
    · refine List.forall_mem_map.mpr fun n hn => List.forall_mem_cons.mpr ⟨?_, ?_⟩
      · exact .of_isWord (h.names n (List.mem_append_left _ hn)).1
      · exact List.forall_mem_map.mpr fun t _ => tidy_cellText h n t

end Table

/-- All symbols in the configuration have words as their names. -/
def Config.Worded (c : Config) : Prop :=
  (∀ s ∈ c.stack, IsWord s.name) ∧ ∀ s ∈ c.input, IsWord s.name

namespace Config.Worded

theorem of_moves (h : g.WellFormed) (hc : c.Worded) (hm : T.Moves c' c) : c'.Worded := by
  obtain ⟨hstack, hinput⟩ := hc
  cases hm with
  | matched _ =>
    refine ⟨?_, ?_⟩
    · exact fun s hs => hstack s (List.mem_of_mem_tail hs)
    · exact fun s hs => hinput s (List.mem_of_mem_tail hs)
  | expand he =>
    have hp := List.mem_of_getElem? (Table.production_of_expand he)
    refine ⟨?_, hinput⟩
    intro s hs
    obtain hs | hs := List.mem_append.mp hs
    · exact h.isWord_name hp (List.mem_filter.mp hs).1
    · exact hstack s (List.mem_of_mem_tail hs)

theorem initial (h : g.WellFormed) (ht : ∀ token ∈ tokens, IsWord token) :
    (Table.initial g tokens).Worded := by
  have hstart : IsWord g.start := (h.names _ (List.mem_append_left _ g.start_declared)).1
  have hend : IsWord (Symbol.name .endOfInput) := isWord_singleton (c := '$') (by decide)
  refine ⟨?_, ?_⟩
  · intro s hs
    obtain rfl | hs := List.mem_cons.mp hs
    · exact hstart
    · obtain rfl := List.mem_singleton.mp hs
      exact hend
  · refine List.forall_mem_append.mpr ⟨?_, ?_⟩
    · exact List.forall_mem_map.mpr ht
    · exact List.forall_mem_singleton.mpr hend

/-- The message about a rejection is one line. -/
theorem newline_notMem_message (hc : c.Worded) (ha : T.Acts c (.halt (.rejected reason))) :
    '\n' ∉ reason.message.toList := by
  have hnumber := newline_notMem_toDigits
  have hend : '\n' ∉ (Symbol.name .endOfInput).toList := by decide
  have htop : ∀ s ∈ c.stack, '\n' ∉ s.name.toList :=
    fun s hs => newline_notMem_of_isWord (hc.1 s hs)
  have hfound : ∀ s ∈ c.input, '\n' ∉ s.name.toList :=
    fun s hs => newline_notMem_of_isWord (hc.2 s hs)
  cases ha with
  | trailing => simp [Rejection.message, hnumber]
  | exhausted => simp [Rejection.message, hnumber, hend, htop _ List.mem_cons_self]
  | unexpected =>
    simp [Rejection.message, hnumber, htop _ List.mem_cons_self, hfound _ List.mem_cons_self]
  | @noApplicable n stack found input position _ =>
    have hn : '\n' ∉ n.toList := htop (.nonTerminal n) List.mem_cons_self
    simp [Rejection.message, hnumber, hn, hfound _ List.mem_cons_self]
  | @ambiguous n stack found input position _ =>
    have hn : '\n' ∉ n.toList := htop (.nonTerminal n) List.mem_cons_self
    simp [Rejection.message, hnumber, hn, hfound _ List.mem_cons_self]

theorem tidy_text (h : g.WellFormed) (hc : c.Worded) (ha : T.action c = a) : Tidy a.text := by
  have hacts := Table.acts_of_action ha
  cases a with
  | matched s =>
    have hs : IsWord s.name := by
      cases hacts with
      | matched _ => exact hc.1 s List.mem_cons_self
    exact Tidy.append ⟨by decide, by decide⟩ (by decide) (newline_notMem_of_isWord hs)
  | expand e => exact h.tidy_text (List.mem_of_getElem? (Table.production_of_expand ha))
  | halt verdict =>
    cases verdict with
    | accepted => exact ⟨by decide, by decide⟩
    | rejected reason =>
      exact Tidy.append ⟨by decide, by decide⟩ (by decide) (hc.newline_notMem_message hacts)

theorem tidy_namesOf {l : List Symbol} (h : ∀ s ∈ l, IsWord s.name) : Tidy (namesOf l) := by
  apply Tidy.intercalate (by decide)
  exact List.forall_mem_map.mpr fun s hs => ⟨.of_isWord (h s hs), (h s hs).1⟩

end Config.Worded

/-- What is told about a step: the stack from its bottom, the input and the action. -/
def Step.cells (s : Step) : List String :=
  [namesOf s.config.stack.reverse, namesOf s.config.input, s.action.text]

theorem lines_append_newline (s t : String) :
    lines (s ++ "\n" ++ t).toList = lines s.toList ++ lines t.toList := by
  have hs : (s ++ "\n" ++ t).toList = s.toList ++ '\n' :: t.toList := by simp
  rw [hs, lines, List.splitOn_append_cons_self]
  rfl

namespace Table

theorem showsRows_steps (h : g.WellFormed) (ht : ∀ token ∈ tokens, IsWord token) :
    ShowsRows
      (lines
        (aligned (["stack", "input", "action"] :: (T.trace tokens).steps.map Step.cells)).toList)
      (["stack", "input", "action"] :: (T.trace tokens).steps.map Step.cells) := by
  have hheader : Tidy "stack" ∧ Tidy "input" ∧ Tidy "action" :=
    ⟨⟨by decide, by decide⟩, ⟨by decide, by decide⟩, ⟨by decide, by decide⟩⟩
  apply showsRows_aligned (n := 3) (List.cons_ne_nil _ _)
  · refine List.forall_mem_cons.mpr ⟨rfl, ?_⟩
    exact List.forall_mem_map.mpr fun s _ => rfl
  · refine List.forall_mem_cons.mpr ⟨by simpa using hheader, ?_⟩
    refine List.forall_mem_map.mpr fun s hs => ?_
    obtain ⟨hworded, ha⟩ := steps_of_kept (fun _ _ hc hm => hc.of_moves h hm)
      (Config.Worded.initial h ht) s hs
    have hstack : ∀ x ∈ s.config.stack.reverse, IsWord x.name := by
      simpa using hworded.1
    have haction : Tidy s.action.text := hworded.tidy_text h ha.symm
    simp [Step.cells, Config.Worded.tidy_namesOf hstack, Config.Worded.tidy_namesOf hworded.2,
      haction]

theorem newline_notMem_verdictLine (h : g.WellFormed) (T : Table g)
    (ht : ∀ token ∈ tokens, IsWord token) (withSteps : Bool) :
    '\n' ∉ ((T.trace tokens).report tokens withSteps).verdictLine.toList := by
  obtain ⟨last, verdict, hlast, ha, hv⟩ := exists_halt_of_kept (T := T)
    (fun c s (hc : c.Worded) hm => hc.of_moves h (.matched hm))
    (fun c e hc he => hc.of_moves h (.expand he)) (Config.Worded.initial h ht)
  have hinput : '\n' ∉ [' '].intercalate (tokens.map String.toList) := by
    simpa using newline_notMem_intercalate ht
  have hverdict : (T.trace tokens).verdict = verdict := hv
  rw [ValidationReport.verdictLine, ValidationReport.verdictText, Trace.report, hverdict]
  cases verdict with
  | accepted => simp [Verdict.reason?, hinput]
  | rejected reason =>
    have hmessage := hlast.newline_notMem_message (acts_of_action ha)
    simp [Verdict.reason?, hinput, hmessage]

theorem plain_withSteps (T : Table g) (tokens : List String) :
    ((T.trace tokens).report tokens true).plain =
      aligned (["stack", "input", "action"] :: (T.trace tokens).steps.map Step.cells) ++ "\n" ++
        ((T.trace tokens).report tokens false).plain := by
  have hhead : (T.trace tokens).steps.head? =
      some ⟨initial g tokens, T.action (initial g tokens)⟩ := T.head?_steps (initial g tokens)
  -- A trace is never empty, so there are steps to be printed.
  obtain ⟨later, hsteps⟩ := List.head?_eq_some_iff.mp hhead
  have hcells : ((T.trace tokens).report tokens true).steps.map StepReport.cells =
      (T.trace tokens).steps.map Step.cells := List.map_map
  rw [ValidationReport.plain, hcells, if_neg]
  · rfl
  · simp [Trace.report, hsteps]

/-- The grid of the table can be read back: a line with the columns and one for each non-terminal in
order with the productions of its cells, all in common columns, whatever the names are made of. So
can the steps of a run on any line, and below them stands what is printed without them. -/
theorem grid_readable (T : Table g) (h : (∃ text, Grammar.ofText text = .ok g) ∨
    ∃ texts, (Rule.ofTexts texts >>= Grammar.ofRules) = .ok g) :
    ShowsRows (lines T.report.grid.toList) (("" :: T.columns.map Symbol.name) ::
      g.nonTerminals.map fun n => n :: T.columns.map (T.cellText n)) ∧
    (∀ n t, T.cellText n t = "" ↔ T.get n t = []) ∧
    ∀ line, ∃ table,
      lines (T.validationReport line true).plain.toList =
        table ++ [(T.validationReport line false).plain.toList] ∧
      ShowsRows table
        (["stack", "input", "action"] :: (T.trace (words line.toList)).steps.map Step.cells) := by
  have hg := Grammar.wellFormed_of_read h
  refine ⟨showsRows_grid hg T, fun n t => cellText_eq_empty_iff, ?_⟩
  intro line
  have ht : ∀ token ∈ words line.toList, IsWord token := (spells_words line.toList).isWord
  refine ⟨_, ?_, showsRows_steps (T := T) hg ht⟩
  have hline := newline_notMem_verdictLine hg T ht false
  rw [validationReport, plain_withSteps, lines_append_newline]
  exact congrArg _ (lines_of_notMem hline)

theorem grid_readable_brackets :
    Grammar.ofText "S -> A b | c | c d\nA -> ( S ) | ε" = .ok brackets ∧
      brackets.table.cellText "S" (.terminal "c") = "S -> c, S -> c d" ∧
      brackets.table.cellText "A" .endOfInput = "" ∧
      ShowsRows (lines brackets.table.report.grid.toList)
        (["", "b", "c", "d", "(", ")", "$"] :: ["S", "A"].map fun n =>
          n :: brackets.table.columns.map (brackets.table.cellText n)) ∧
      ∃ table, lines (brackets.table.validationReport "( c x" true).plain.toList =
          table ++ ["( c x : rejected: token 1: S has 2 productions on c".toList] ∧
        ShowsRows table (["stack", "input", "action"] ::
          (brackets.table.trace ["(", "c", "x"]).steps.map Step.cells) := by
  have hread : Grammar.ofText "S -> A b | c | c d\nA -> ( S ) | ε" = .ok brackets := rfl
  obtain ⟨hgrid, hempty, hsteps⟩ := grid_readable brackets.table (.inl ⟨_, hread⟩)
  have hs : brackets.table.get "S" (.terminal "c") =
      [⟨1, ⟨"S", [.terminal "c"]⟩⟩, ⟨2, ⟨"S", [.terminal "c", .terminal "d"]⟩⟩] := by
    decide +kernel
  have ha : brackets.table.get "A" .endOfInput = [] := by
    decide +kernel
  have hv : brackets.table.validate ["(", "c", "x"] =
      .rejected (.ambiguousDecision "S" (.terminal "c") 1 [1, 2]) := by
    apply verdict_of_within (n := 5)
    decide +kernel
  refine ⟨hread, ?_, (hempty "A" .endOfInput).mpr ha, hgrid, ?_⟩
  · rw [cellText, hs]
    rfl
  · have hwords : words "( c x".toList = ["(", "c", "x"] := rfl
    have hplain : (brackets.table.validationReport "( c x" false).plain =
        "( c x : rejected: token 1: S has 2 productions on c" := by
      have hverdict : (brackets.table.trace ["(", "c", "x"]).verdict =
          .rejected (.ambiguousDecision "S" (.terminal "c") 1 [1, 2]) := hv
      rw [validationReport, hwords, Trace.report, hverdict]
      rfl
    have htable := hsteps "( c x"
    rw [hplain, hwords] at htable
    exact htable

end Table

end Predictive
