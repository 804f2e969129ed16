import Predictive.Proofs.First
import Predictive.Proofs.Separators

namespace Predictive

variable {g g' : Grammar} {text text' n : String} {s t : Symbol}

namespace SetsRow

theorem newline_notMem_setText {ws : List String} (h : ∀ w ∈ ws, IsWord w) :
    '\n' ∉ (setText ws).toList := by
  have hset : '\n' ∉ (", ".intercalate ws).toList :=
    notMem_intercalate (by decide) fun w hw => newline_notMem_of_isWord (h w hw)
  simp only [setText, String.toList_append, List.mem_append, hset, or_false]
  decide

theorem Worded.newline_notMem {r : SetsRow} (h : r.Worded) :
    '\n' ∉ r.plainFirst.toList ∧ '\n' ∉ r.plainFollow.toList := by
  have hname := newline_notMem_of_isWord h.name
  have hfirst := newline_notMem_setText h.first
  have hfollow := newline_notMem_setText h.follow
  simp [plainFirst, plainFollow, hname, hfirst, hfollow]

end SetsRow

namespace Grammar

/-- A grammar that can stand in a text. -/
structure Plain (g : Grammar) : Prop where
  wellFormed : g.WellFormed
  names : ∀ name ∈ g.nonTerminals ++ g.terminals, PlainWord name

theorem plain_of_ofText (h : Grammar.ofText text = .ok g) : g.Plain := by
  obtain ⟨rules, hrules, hg⟩ := bind_eq_ok_iff.mp h
  have hb := Rule.builds_of_ofRules hg
  have hw := (Rule.ofText_eq_ok_iff.mp hrules).wellFormed nofun
  refine ⟨hb.wellFormed fun r hr => (hw r hr).1, fun name hname => ?_⟩
  obtain hname | hname := List.mem_append.mp hname
  · rw [hb.nonTerminals] at hname
    obtain ⟨r, hr, rfl⟩ := Rule.mem_declared_iff.mp hname
    obtain ⟨hworded, hplain, -⟩ := hw r hr
    exact ⟨hworded.1, hplain.1⟩
  · obtain ⟨r, hr, tokens, htokens, htoken, -⟩ := hb.exists_token hname
    obtain ⟨hworded, hplain, -⟩ := hw r hr
    exact ⟨hworded.2 tokens htokens name htoken, (hplain.2 tokens htokens name htoken).1⟩

theorem mem_columns_of_mem_first (h : g.WellFormed)
    (ht : t ∈ (g.analyse.firstOfSymbol s).symbols) (hs : ¬ s.isInput) : t ∈ g.table.columns := by
  apply h.mem_columns_of_mem_alphabet
  · obtain ⟨hin, -⟩ | ⟨n, rfl, ht⟩ := First.mem_ofSymbol.mp ht
    · exact absurd hin hs
    · exact g.analyse.firstRun.state.subset_alphabet n t ht
  · rw [← Analysis.first_singleton] at ht
    exact isInput_of_begins (Analysis.mem_first_iff.mp ht)

theorem mem_columns_of_mem_follow (h : g.WellFormed) (ht : t ∈ g.analyse.follow n) :
    t ∈ g.table.columns := by
  apply h.mem_columns_of_mem_alphabet
  · exact g.analyse.followRun.state.subset_alphabet n t ht
  · obtain rfl | ⟨a, rfl⟩ := terminal_or_end_of_follows (follows_of_mem_follow ht)
    · rfl
    · rfl

theorem eq_of_map_name {S S' : SymbolSet} (h : g.WellFormed) (h' : g'.WellFormed)
    (hS : ∀ t ∈ S, t ∈ g.table.columns) (hS' : ∀ t ∈ S', t ∈ g'.table.columns)
    (he : S.toList.map Symbol.name = S'.toList.map Symbol.name) : S = S' := by
  have hlists : S.toList.map id = S'.toList.map id :=
    map_eq_map_of_forall (fun s hs t ht => h.eq_of_name_eq h' (hS s hs) (hS' t ht)) he
  rw [List.map_id, List.map_id] at hlists
  exact SymbolSet.eq_of_toList hlists

/-- The names by which a FIRST set is reported. -/
def firstNames (F : First) : List String :=
  F.symbols.toList.map Symbol.name ++ if F.nullable then [Symbol.epsilonName] else []

theorem epsilonName_notMem_names {S : SymbolSet} (h : g.WellFormed)
    (hS : ∀ t ∈ S, t ∈ g.table.columns) : Symbol.epsilonName ∉ S.toList.map Symbol.name := by
  rw [List.mem_map]
  rintro ⟨t, ht, he⟩
  have hne : ∀ t ∈ g.table.columns, t.name ≠ Symbol.epsilonName :=
    WellFormed.forall_name_columns (fun a ha => (h.names a (List.mem_append_right _ ha)).2.1)
      (by decide)
  exact hne t (hS t ht) he

/-- No symbol is called `ε`, so that its name tells that a FIRST set is nullable. -/
theorem eq_of_firstNames {F F' : First} (h : g.WellFormed) (h' : g'.WellFormed)
    (hF : ∀ t ∈ F.symbols, t ∈ g.table.columns) (hF' : ∀ t ∈ F'.symbols, t ∈ g'.table.columns)
    (he : firstNames F = firstNames F') : F = F' := by
  obtain ⟨S, nullable⟩ := F
  obtain ⟨S', nullable'⟩ := F'
  have hn := epsilonName_notMem_names h hF
  have hn' := epsilonName_notMem_names h' hF'
  have hnullable : nullable = nullable' := by
    have hmem := congrArg (Symbol.epsilonName ∈ ·) he
    simp only [firstNames, List.mem_append, hn, hn', false_or] at hmem
    cases nullable <;> cases nullable' <;> simp_all
  subst hnullable
  obtain rfl : S = S' := eq_of_map_name h h' hF hF' (List.append_cancel_right he)
  rfl

/-- The row of a non-terminal in the report. -/
def setsRow (g : Grammar) (n : String) : SetsRow where
  name := n
  nullable := (g.analyse.firstOfSymbol (.nonTerminal n)).nullable
  first := firstNames (g.analyse.firstOfSymbol (.nonTerminal n))
  follow := (g.analyse.follow n).toList.map Symbol.name

theorem rows_setsReport (g : Grammar) :
    g.analyse.setsReport.rows = g.nonTerminals.map g.setsRow := rfl

theorem worded_setsRow (h : g.WellFormed) (hn : n ∈ g.nonTerminals) : (g.setsRow n).Worded := by
  have hcolumns : ∀ t ∈ g.table.columns, IsWord t.name :=
    fun _ ht => h.isWord_name_of_mem_columns ht
  refine ⟨(h.names n (List.mem_append_left _ hn)).1, ?_, ?_⟩
  · refine List.forall_mem_append.mpr ⟨List.forall_mem_map.mpr fun t ht => ?_, ?_⟩
    · exact hcolumns t (mem_columns_of_mem_first h ht Bool.false_ne_true)
    · intro w hw
      split at hw
      · rw [List.mem_singleton.mp hw]
        exact isWord_singleton (c := 'ε') (by decide)
      · cases hw
  · exact List.forall_mem_map.mpr fun t ht => hcolumns t (mem_columns_of_mem_follow h ht)

theorem lines_plain_setsReport (h : g.WellFormed) : lines g.analyse.setsReport.plain.toList =
    (g.nonTerminals.map (SetsRow.plainFirst ∘ g.setsRow) ++
      g.nonTerminals.map (SetsRow.plainFollow ∘ g.setsRow)).map String.toList := by
  rw [← List.map_map, ← List.map_map, ← rows_setsReport]
  apply lines_textLines_of_notMem
  · simpa [rows_setsReport] using List.ne_nil_of_mem g.start_declared
  · simp only [rows_setsReport, List.forall_mem_append, List.forall_mem_map]
    exact ⟨fun n hn => (worded_setsRow h hn).newline_notMem.1,
      fun n hn => (worded_setsRow h hn).newline_notMem.2⟩

/-- The first half of the lines are the FIRST sets, the second the FOLLOW sets. -/
theorem sets_eq_of_plain (h : g.WellFormed) (h' : g'.WellFormed)
    (he : g.analyse.setsReport.plain = g'.analyse.setsReport.plain) :
    g.nonTerminals = g'.nonTerminals ∧ ∀ n ∈ g.nonTerminals,
      g.analyse.firstOfSymbol (.nonTerminal n) = g'.analyse.firstOfSymbol (.nonTerminal n) ∧
      g.analyse.follow n = g'.analyse.follow n := by
  have hlists := eq_of_lines (lines_plain_setsReport h) (lines_plain_setsReport h') he
  -- There are two lines for each non-terminal, which tells where the second half begins.
  have hlength := congrArg List.length hlists
  simp only [List.length_append, List.length_map] at hlength
  obtain ⟨hfirst, hfollow⟩ := List.append_inj hlists (by simp only [List.length_map]; omega)
  have hf : g.nonTerminals.map (fun n => (n, (g.setsRow n).first)) =
      g'.nonTerminals.map fun n => (n, (g'.setsRow n).first) := by
    refine map_eq_map_of_forall (fun n hn m hm hline => ?_) hfirst
    obtain ⟨hname, hset⟩ :=
      SetsRow.eq_of_plainFirst (worded_setsRow h hn) (worded_setsRow h' hm) hline
    exact Prod.ext hname hset
  have hw : g.nonTerminals.map (fun n => (g.setsRow n).follow) =
      g'.nonTerminals.map fun n => (g'.setsRow n).follow :=
    map_eq_map_of_forall (fun n hn m hm hline =>
      (SetsRow.eq_of_plainFollow (worded_setsRow h hn) (worded_setsRow h' hm) hline).2) hfollow
  have hnames : g.nonTerminals = g'.nonTerminals := by
    simpa [Function.comp_def] using congrArg (List.map Prod.fst) hf
  rw [← hnames] at hf hw
  refine ⟨hnames, fun n hn => ⟨?_, ?_⟩⟩
  · exact eq_of_firstNames h h' (fun t ht => mem_columns_of_mem_first h ht Bool.false_ne_true)
      (fun t ht => mem_columns_of_mem_first h' ht Bool.false_ne_true)
      (Prod.mk.inj (List.map_inj_left.mp hf n hn)).2
  · exact eq_of_map_name h h' (fun t ht => mem_columns_of_mem_follow h ht)
      (fun t ht => mem_columns_of_mem_follow h' ht) (List.map_inj_left.mp hw n hn)

end Grammar

theorem Cell.isConflict_eq (c : Cell) : c.isConflict = decide (1 < c.shown.2.2.length) := by
  simp [isConflict, shown]

namespace Table

variable {T : Table g} {T' : Table g'} {c c' : Cell}

theorem plain_of_mem_cells (h : g.Plain) (hc : c ∈ T.cells) : c.Plain := by
  obtain ⟨hn, he, hne⟩ := mem_cells_iff.mp hc
  have hentries : ∀ e ∈ c.entries, e.production ∈ g.productions ∧
      e.production.left = c.nonTerminal := by
    intro e hm
    rw [he] at hm
    obtain ⟨hid, hleft, -⟩ := T.mem_get.mp hm
    exact ⟨List.mem_of_getElem? hid, hleft⟩
  refine ⟨h.names _ (List.mem_append_left _ hn), ?_, hne, fun e he => (hentries e he).2, ?_⟩
  · have hend : PlainWord Symbol.endName := plainWord_singleton (c := '$') (by decide)
    have hterminals : ∀ a ∈ g.terminals, PlainWord a :=
      fun a ha => h.names a (List.mem_append_right _ ha)
    exact Grammar.WellFormed.forall_name_columns hterminals hend _
      (h.wellFormed.mem_columns_of_mem_cells hc)
  · intro e he
    have hepsilon : PlainWord Symbol.epsilonName := plainWord_singleton (c := 'ε') (by decide)
    exact h.wellFormed.forall_name_right h.names hepsilon (hentries e he).1

theorem shown_eq_of_line_eq (h : g.Plain) (h' : g'.Plain) (hc : c ∈ T.cells) (hc' : c' ∈ T'.cells)
    (he : c.line = c'.line) : c.shown = c'.shown := by
  obtain ⟨hname, hlookahead, hrights⟩ :=
    (plain_of_mem_cells h hc).eq_of_line (plain_of_mem_cells h' hc') he
  have ht := h.wellFormed.eq_of_name_eq h'.wellFormed (h.wellFormed.mem_columns_of_mem_cells hc)
    (h'.wellFormed.mem_columns_of_mem_cells hc') hlookahead
  exact Prod.ext hname (Prod.ext ht hrights)

/-- Of the lines of the report those about cells begin with a parenthesis. -/
theorem filter_reportLines (T : Table g) :
    T.reportLines.filter (fun s => s.toList.head? = some '(') = T.cells.map Cell.line := by
  rw [reportLines, List.filter_append, List.filter_append, List.filter_eq_self.mpr,
    List.filter_eq_nil_iff.mpr, List.filter_eq_nil_iff.mpr, List.append_nil, List.append_nil]
  · rw [List.forall_mem_singleton]
    split <;> decide
  · exact List.forall_mem_map.mpr fun c _ => by simp [Cell.conflictLine]
  · exact List.forall_mem_map.mpr fun c _ => by simp [Cell.line]

theorem map_shown_conflicts (T : Table g) : T.conflicts.map Cell.shown =
    (T.cells.map Cell.shown).filter fun c => 1 < c.2.2.length := by
  rw [conflicts, List.filter_map]
  congr 2
  funext c
  exact c.isConflict_eq

theorem isLL1_eq_all_shown (T : Table g) :
    T.isLL1 = (T.cells.map Cell.shown).all fun c => !decide (1 < c.2.2.length) := by
  rw [isLL1, List.all_map]
  congr 1
  funext c
  rw [c.isConflict_eq]
  rfl

/-- The cells are on the lines, and from the cells follow the conflicts and the verdict. -/
theorem shown_eq_of_plain (h : g.Plain) (h' : g'.Plain) (he : T.report.plain = T'.report.plain) :
    T.cells.map Cell.shown = T'.cells.map Cell.shown ∧
      T.conflicts.map Cell.shown = T'.conflicts.map Cell.shown ∧ T.isLL1 = T'.isLL1 := by
  have hlists := eq_of_lines (lines_plain_report h.wellFormed T)
    (lines_plain_report h'.wellFormed T') he
  have hcells : T.cells.map Cell.shown = T'.cells.map Cell.shown := by
    apply map_eq_map_of_forall fun c hc c' hc' => shown_eq_of_line_eq h h' hc hc'
    rw [← filter_reportLines, ← filter_reportLines, hlists]
  refine ⟨hcells, ?_, ?_⟩
  · rw [map_shown_conflicts, map_shown_conflicts, hcells]
  · rw [isLL1_eq_all_shown, isLL1_eq_all_shown, hcells]

end Table

namespace Grammar

/-- Nothing is lost in the plain reports on grammars that were read from texts, though what
separates names there may be in names as well. From the report on the sets the non-terminals can be
read back in order, and for each of them whether it is nullable, its FIRST set and its FOLLOW set;
from the report on the table the cells in order with their productions, the conflicts and the
verdict. -/
theorem plain_lossless (h : Grammar.ofText text = .ok g) (h' : Grammar.ofText text' = .ok g') :
    (g.analyse.setsReport.plain = g'.analyse.setsReport.plain →
      g.nonTerminals = g'.nonTerminals ∧ ∀ n ∈ g.nonTerminals,
        g.analyse.isNullable (.nonTerminal n) = g'.analyse.isNullable (.nonTerminal n) ∧
        (g.analyse.firstOfSymbol (.nonTerminal n)).symbols =
          (g'.analyse.firstOfSymbol (.nonTerminal n)).symbols ∧
        g.analyse.follow? n = g'.analyse.follow? n) ∧
    (g.table.report.plain = g'.table.report.plain →
      g.table.cells.map Cell.shown = g'.table.cells.map Cell.shown ∧
      g.table.conflicts.map Cell.shown = g'.table.conflicts.map Cell.shown ∧
      g.table.isLL1 = g'.table.isLL1) := by
  have hg := plain_of_ofText h
  have hg' := plain_of_ofText h'
  refine ⟨fun he => ?_, Table.shown_eq_of_plain hg hg'⟩
  obtain ⟨hnames, hsets⟩ := sets_eq_of_plain hg.wellFormed hg'.wellFormed he
  refine ⟨hnames, fun n hn => ?_⟩
  obtain ⟨hfirst, hfollow⟩ := hsets n hn
  refine ⟨congrArg First.nullable hfirst, congrArg First.symbols hfirst, ?_⟩
  rw [follow?_eq_some hn, follow?_eq_some (hnames ▸ hn), hfollow]

theorem plain_lossless_reordered : ∃ g g',
    Grammar.ofText "S -> ( S , | : | \x7b | \x7b \x7d" = .ok g ∧
    Grammar.ofText "S -> : | \x7b | ( S ,\n | \x7b \x7d" = .ok g' ∧
    g.productions ≠ g'.productions ∧
    g.analyse.setsReport.plain = "First(S) = \x7b(, :, \x7b\x7d\nFollow(S) = \x7b,, $\x7d" ∧
    (g.analyse.firstOfSymbol (.nonTerminal "S")).symbols =
      (g'.analyse.firstOfSymbol (.nonTerminal "S")).symbols ∧
    g.analyse.follow? "S" = g'.analyse.follow? "S" ∧
    (lines g.table.report.plain.toList).take 2 =
      ["(S, () : S -> ( S ,".toList, "(S, :) : S -> :".toList] ∧
    g.table.cells.map Cell.shown = g'.table.cells.map Cell.shown ∧
    g.table.conflicts.map Cell.shown = g'.table.conflicts.map Cell.shown := by
  obtain ⟨g, g', h, h', hne, hs, hsets, hl, htable, hn⟩ : ∃ g g',
      Grammar.ofText "S -> ( S , | : | \x7b | \x7b \x7d" = .ok g ∧
      Grammar.ofText "S -> : | \x7b | ( S ,\n | \x7b \x7d" = .ok g' ∧
      g.productions ≠ g'.productions ∧
      g.analyse.setsReport.plain = "First(S) = \x7b(, :, \x7b\x7d\nFollow(S) = \x7b,, $\x7d" ∧
      g.analyse.setsReport.plain = g'.analyse.setsReport.plain ∧
      (lines g.table.report.plain.toList).take 2 =
        ["(S, () : S -> ( S ,".toList, "(S, :) : S -> :".toList] ∧
      g.table.report.plain = g'.table.report.plain ∧ "S" ∈ g.nonTerminals :=
    ⟨_, _, rfl, rfl, by decide, by decide +kernel, by decide +kernel, by decide +kernel,
      by decide +kernel, by decide⟩
  obtain ⟨hfrom, hcells⟩ := plain_lossless h h'
  obtain ⟨-, hread⟩ := hfrom hsets
  obtain ⟨-, hfirst, hfollow⟩ := hread "S" hn
  obtain ⟨hshown, hconflicts, -⟩ := hcells htable
  exact ⟨g, g', h, h', hne, hs, hfirst, hfollow, hl, hshown, hconflicts⟩

end Grammar

end Predictive
