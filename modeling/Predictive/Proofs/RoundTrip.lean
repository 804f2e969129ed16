import Predictive.Proofs.Layout
import Predictive.Proofs.Representation
import Predictive.Report.Productions

namespace Predictive

variable {w left right : String} {ws tokens : List String} {rights : List String}
  {alternatives : List (List String)} {ls : List (List Char)} {rules : List Rule} {r : Rule}

theorem lines_of_notMem {cs : List Char} (h : '\n' ∉ cs) : lines cs = [cs] :=
  List.splitOn_eq_singleton h

theorem lines_textLines {texts : List String} (h : texts ≠ []) :
    lines (textLines texts).toList = texts.flatMap fun s => lines s.toList := by
  induction texts with
  | nil => exact absurd rfl h
  | cons s texts ih =>
    cases texts with
    | nil => simp [textLines]
    | cons t texts =>
      have hs : (textLines (s :: t :: texts)).toList =
          s.toList ++ '\n' :: (textLines (t :: texts)).toList := by
        simp [textLines]
      rw [hs, lines, List.splitOn_append_cons_self]
      exact congrArg _ (ih (List.cons_ne_nil _ _))

theorem lines_textLines_of_notMem {texts : List String} (hne : texts ≠ [])
    (h : ∀ s ∈ texts, '\n' ∉ s.toList) : lines (textLines texts).toList = texts.map String.toList := by
  rw [lines_textLines hne, List.map_eq_flatMap]
  exact List.flatMap_congr fun s hs => lines_of_notMem (h s hs)

theorem newline_notMem_of_isWord (h : IsWord w) : '\n' ∉ w.toList := fun hn => h.2 _ hn rfl

theorem notMem_intercalate {c : Char} {sep : String} (hsep : c ∉ sep.toList)
    (h : ∀ w ∈ ws, c ∉ w.toList) : c ∉ (sep.intercalate ws).toList := by
  induction ws with
  | nil => simp
  | cons w ws ih =>
    have ⟨hw, hws⟩ := List.forall_mem_cons.mp h
    cases ws with
    | nil => simpa using hw
    | cons v ws =>
      rw [String.intercalate_cons_cons]
      simpa [hw, hsep] using ih hws

theorem newline_notMem_intercalate (h : ∀ w ∈ ws, IsWord w) :
    '\n' ∉ (" ".intercalate ws).toList :=
  notMem_intercalate (by simp) fun w hw => newline_notMem_of_isWord (h w hw)

theorem newline_notMem_toDigits (n : Nat) : '\n' ∉ Nat.toDigits 10 n := fun h =>
  absurd (Nat.isDigit_of_mem_toDigits (by decide) (by decide) h) (by decide)

theorem blank_blanks (n : Nat) : Blank (blanks n).toList := by
  intro c hc
  rw [blanks, String.toList_ofList] at hc
  obtain rfl := List.eq_of_mem_replicate hc
  rfl

theorem newline_notMem_padLeft (width : Nat) (h : '\n' ∉ w.toList) :
    '\n' ∉ (padLeft width w).toList := by
  simpa [padLeft, blanks] using h

theorem blank_space : Blank [' '] := blank_cons.mpr ⟨rfl, blank_nil⟩

theorem Spells.padLeft (width : Nat) (h : Spells w.toList ws) :
    Spells (padLeft width w).toList ws := by
  rw [Predictive.padLeft, String.toList_append]
  exact h.gap_append (blank_blanks _)

/-- The texts of the alternatives on one line, with a bar in front of each but the first. -/
theorem alternates_join (h : Spells right.toList tokens)
    (hs : List.Forall₂ (fun right tokens => Spells right.toList tokens) rights alternatives) :
    Alternates (' ' :: (right ++ String.join (rights.map (" | " ++ ·))).toList)
      (tokens :: alternatives) := by
  induction hs generalizing right tokens with
  | nil => simpa using .last (h.gap_append blank_space)
  | cons hsecond _ ih =>
    have hpiece : Spells (' ' :: (right.toList ++ [' '])) tokens :=
      (h.append_gap blank_space).gap_append blank_space
    simpa using Alternates.cons hpiece (ih hsecond)

namespace RuleReport

/-- The line that a rule begins with. -/
def headLine (width : Nat) (left right : String) : String := padLeft width left ++ " -> " ++ right

/-- The line of a later alternative. -/
def barLine (width : Nat) (right : String) : String := padLeft width "" ++ "  | " ++ right

theorem toList_headLine (width : Nat) (left right : String) : (headLine width left right).toList =
    ((padLeft width left).toList ++ [' ']) ++ (arrow ++ ' ' :: right.toList) := by
  simp [headLine, arrow]

theorem toList_barLine (width : Nat) (right : String) : (barLine width right).toList =
    ((padLeft width "").toList ++ [' ', ' ']) ++ '|' :: ' ' :: right.toList := by
  simp [barLine]

theorem plain_multiline (left right : String) (rights : List String) (width : Nat) :
    plain ⟨left, right :: rights⟩ width true =
      textLines (headLine width left right :: rights.map (barLine width)) := rfl

theorem plain_single (left right : String) (rights : List String) (width : Nat) :
    plain ⟨left, right :: rights⟩ width false =
      headLine width left (right ++ String.join (rights.map (" | " ++ ·))) := by
  simp [plain, headLine, String.append_assoc]

theorem newline_notMem_headLine (width : Nat) (hl : '\n' ∉ left.toList)
    (hr : '\n' ∉ right.toList) : '\n' ∉ (headLine width left right).toList := by
  simp [toList_headLine, newline_notMem_padLeft width hl, hr, arrow]

theorem newline_notMem_barLine (width : Nat) (hr : '\n' ∉ right.toList) :
    '\n' ∉ (barLine width right).toList := by
  have hp := newline_notMem_padLeft (w := "") width (by simp)
  simp [toList_barLine, hp, hr]

end RuleReport

namespace Rule

open RuleReport

/-- A line for each alternative continues the rule above. -/
theorem writes_barLines (width : Nat)
    (hs : List.Forall₂ (fun right tokens => Spells right.toList tokens) rights alternatives)
    (h : Writes ls [] rules) :
    Writes (rights.map (fun right => (barLine width right).toList) ++ ls) alternatives rules := by
  induction hs with
  | nil => exact h
  | @cons right tokens rights alternatives hright _ ih =>
    have hpad : Spells (padLeft width "").toList [] := 
      Spells.padLeft width (.nil (by simpa using blank_nil))
    have hgap : Blank ((padLeft width "").toList ++ [' ', ' ']) :=
      blank_append.mpr ⟨spells_nil_iff.mp hpad, blank_cons.mpr ⟨rfl, blank_space⟩⟩
    rw [List.map_cons, List.cons_append, toList_barLine]
    exact .continuation hgap (.last (hright.gap_append blank_space)) ih

/-- The report holds the texts of the rule, with no line end in them. -/
structure Prints (p : RuleReport) (r : Rule) : Prop where
  denotes : Denotes (p.left, p.rights) r
  alternatives_ne_nil : r.alternatives ≠ []
  left_line : '\n' ∉ p.left.toList
  rights_line : ∀ right ∈ p.rights, '\n' ∉ right.toList

/-- A printed rule can be read, in either layout. -/
theorem writes_plain {p : RuleReport} (hp : Prints p r) (width : Nat) (multiline : Bool)
    (h : Writes ls [] rules) :
    Writes (lines (p.plain width multiline).toList ++ ls) [] (r :: rules) := by
  obtain ⟨⟨hl, hs⟩, hne, hleft, hrights⟩ := hp
  obtain ⟨left, rights⟩ := p
  obtain ⟨name, alternatives⟩ := r
  cases hs with
  | nil => exact absurd rfl hne
  | @cons right tokens rights alternatives hfirst hothers =>
    have ⟨hn, hns⟩ := List.forall_mem_cons.mp hrights
    have hbefore : Spells ((padLeft width left).toList ++ [' ']) [name] :=
      (hl.padLeft width).append_gap blank_space
    cases multiline with
    | true =>
      have hlines : ∀ s ∈ headLine width left right :: rights.map (barLine width),
          '\n' ∉ s.toList := by
        refine List.forall_mem_cons.mpr ⟨newline_notMem_headLine width hleft hn, ?_⟩
        exact List.forall_mem_map.mpr fun right hr => newline_notMem_barLine width (hns right hr)
      rw [plain_multiline, lines_textLines_of_notMem (List.cons_ne_nil _ _) hlines, List.map_cons,
        List.map_map, List.cons_append, toList_headLine]
      have hhere : Alternates (' ' :: right.toList) [tokens] := .last (hfirst.gap_append blank_space)
      exact .rule hbefore hhere (writes_barLines width hothers h)
    | false =>
      have hbody : '\n' ∉ (right ++ String.join (rights.map (" | " ++ ·))).toList := by
        simpa [hn] using hns
      have hhere := alternates_join hfirst hothers
      have hw : Writes _ [] (⟨name, (tokens :: alternatives) ++ []⟩ :: rules) := .rule hbefore hhere h
      rw [List.append_nil] at hw
      rw [plain_single, lines_of_notMem (newline_notMem_headLine width hleft hbody),
        List.singleton_append, toList_headLine]
      exact hw

theorem writes_reports {reports : List RuleReport} (hp : List.Forall₂ Prints reports rules)
    (width : RuleReport → Nat) (multiline : RuleReport → Bool) :
    Writes ((reports.map fun p => p.plain (width p) (multiline p)).flatMap fun s => lines s.toList) []
      rules := by
  induction hp with
  | nil => exact .nil
  | cons hp _ ih => exact writes_plain hp _ _ ih

theorem name_symbolOf (names : List String) (token : String) :
    (symbolOf names token).name = token := by
  unfold symbolOf
  split
  · next h => exact h.symm
  · split <;> rfl

theorem map_name_symbolOf (names tokens : List String) :
    (tokens.map (symbolOf names)).map Symbol.name = tokens := by
  simp [Function.comp_def, name_symbolOf]

end Rule

namespace Grammar

open Rule

variable {g g' : Grammar} {n : String}

/-- All productions of a non-terminal in one rule. -/
def ruleOf (g : Grammar) (n : String) : Rule :=
  ⟨n, (g.productionsOf n).map fun p => p.right.map Symbol.name⟩

/-- The rules as they are reported. -/
def grouped (g : Grammar) : List Rule := g.nonTerminals.map g.ruleOf

theorem mem_alternatives_ruleOf (hb : Builds rules g) :
    tokens ∈ (g.ruleOf n).alternatives ↔ (n, tokens) ∈ clauses rules := by
  simp only [ruleOf, List.mem_map, mem_productionsOf, hb.productions, Rule.productions]
  constructor
  · rintro ⟨_, ⟨⟨⟨left, tokens⟩, hc, rfl⟩, rfl⟩, rfl⟩
    rw [map_name_symbolOf]
    exact hc
  · intro hc
    exact ⟨_, ⟨⟨_, hc, rfl⟩, rfl⟩, map_name_symbolOf _ _⟩

theorem map_symbolOf_name (hb : Builds rules g) {p : Production} (hp : p ∈ g.productions) :
    (p.right.map Symbol.name).map (symbolOf g.nonTerminals) = p.right := by
  rw [hb.productions] at hp
  obtain ⟨⟨left, tokens⟩, _, rfl⟩ := List.mem_map.mp hp
  rw [map_name_symbolOf, hb.nonTerminals]

theorem declared_grouped (hn : g.nonTerminals.Nodup) : declared g.grouped = g.nonTerminals := by
  have hl : g.grouped.map Rule.left = g.nonTerminals := by
    simp [grouped, ruleOf, Function.comp_def]
  rw [declared, hl, eraseDups_of_nodup hn]

/-- Grouping puts the productions of a non-terminal together and keeps their order. -/
theorem productions_grouped (hb : Builds rules g) (hn : g.nonTerminals.Nodup) :
    Rule.productions g.grouped = g.nonTerminals.flatMap g.productionsOf := by
  rw [Rule.productions, declared_grouped hn, clauses, List.map_flatMap, grouped, List.flatMap_map]
  apply List.flatMap_congr
  intro n _
  rw [ruleOf, List.map_map, List.map_map]
  refine (List.map_congr_left fun p hp => ?_).trans (List.map_id _)
  obtain ⟨hmem, rfl⟩ := mem_productionsOf.mp hp
  simp only [Function.comp_apply, map_symbolOf_name hb hmem, id]

theorem filter_productionsOf (n m : String) :
    (g.productionsOf m).filter (·.left = n) = if m = n then g.productionsOf n else [] := by
  split
  · next h =>
    rw [h, productionsOf, List.filter_filter]
    simp
  · next h =>
    rw [List.filter_eq_nil_iff]
    intro p hp
    have hl := (mem_productionsOf.mp hp).2
    simpa [hl] using h

theorem flatMap_ite_of_nodup {α : Type} {names : List String} (h : names.Nodup) (n : String)
    (l : List α) : (names.flatMap fun m => if m = n then l else []) = if n ∈ names then l else [] := by
  induction names with
  | nil => rfl
  | cons m names ih =>
    have ⟨hm, hnames⟩ := List.nodup_cons.mp h
    rw [List.flatMap_cons, ih hnames]
    by_cases he : m = n
    · subst he
      simp [hm]
    · simp [he, Ne.symm he]

theorem productionsOf_eq_nil (h : n ∉ g.nonTerminals) : g.productionsOf n = [] := by
  rw [List.eq_nil_iff_forall_not_mem]
  intro p hp
  obtain ⟨hmem, rfl⟩ := mem_productionsOf.mp hp
  exact h (g.left_declared p hmem)

/-- Every non-terminal has the same productions in the same order. Their numbers may differ, and the
order of the terminals, where a non-terminal had rules that were not next to each other. -/
structure Regroups (g' g : Grammar) : Prop where
  start : g'.start = g.start
  nonTerminals : g'.nonTerminals = g.nonTerminals
  productionsOf : ∀ n, g'.productionsOf n = g.productionsOf n

theorem Regroups.productionsReport_eq (h : Regroups g' g) :
    g'.productionsReport = g.productionsReport := by
  simp only [productionsReport, h.nonTerminals, h.productionsOf]

theorem regroups_of_builds (hb : Builds rules g) (hb' : Builds g.grouped g') : Regroups g' g := by
  have hn : g.nonTerminals.Nodup := hb.nonTerminals ▸ nodup_eraseDups _
  have hnames : g'.nonTerminals = g.nonTerminals := hb'.nonTerminals.trans (declared_grouped hn)
  refine ⟨?_, hnames, fun n => ?_⟩
  · have hs : some g'.start = some g.start := by
      rw [← hb'.start, ← hb.start, declared_grouped hn, hb.nonTerminals]
    exact Option.some.inj hs
  · -- Of all groups only the one of `n` has productions of `n`.
    rw [productionsOf, hb'.productions, productions_grouped hb hn, List.filter_flatMap]
    simp only [filter_productionsOf]
    rw [flatMap_ite_of_nodup hn]
    split
    · rfl
    · next h => rw [productionsOf_eq_nil h]

theorem exists_ofRules_grouped (hb : Builds rules g) : ∃ g', ofRules g.grouped = .ok g' := by
  have hn : g.nonTerminals.Nodup := hb.nonTerminals ▸ nodup_eraseDups _
  have hd : declared g.grouped = declared rules := (declared_grouped hn).trans hb.nonTerminals
  refine exists_ofRules_iff.mpr ⟨hd ▸ hb.unreserved, ?_, ?_⟩
  · simpa [grouped] using List.ne_nil_of_mem g.start_declared
  · rintro ⟨n, tokens⟩ hc
    obtain ⟨_, hr, rfl, ht⟩ := mem_clauses.mp hc
    obtain ⟨n, -, rfl⟩ := List.mem_map.mp hr
    exact hb.acceptable _ ((mem_alternatives_ruleOf hb).mp ht)

/-- Each part of a grouped rule is a part of a rule that the grammar was built from. -/
theorem wellFormed_ruleOf (hb : Builds rules g)
    (hw : ∀ r ∈ rules, Worded r ∧ Plain r ∧ r.alternatives ≠ []) (hn : n ∈ g.nonTerminals) :
    Worded (g.ruleOf n) ∧ Plain (g.ruleOf n) ∧ (g.ruleOf n).alternatives ≠ [] := by
  rw [hb.nonTerminals] at hn
  obtain ⟨r, hr, rfl⟩ := List.mem_map.mp (List.mem_eraseDups.mp hn)
  have ⟨hworded, hplain, hne⟩ := hw r hr
  have hmem : ∀ tokens ∈ (g.ruleOf r.left).alternatives, ∃ r' ∈ rules, tokens ∈ r'.alternatives := by
    intro tokens ht
    obtain ⟨r', hr', -, ht⟩ := mem_clauses.mp ((mem_alternatives_ruleOf hb).mp ht)
    exact ⟨r', hr', ht⟩
  refine ⟨⟨hworded.1, fun tokens ht => ?_⟩, ⟨hplain.1, fun tokens ht => ?_⟩, ?_⟩
  · obtain ⟨r', hr', ht⟩ := hmem tokens ht
    exact (hw r' hr').1.2 tokens ht
  · obtain ⟨r', hr', ht⟩ := hmem tokens ht
    exact (hw r' hr').2.1.2 tokens ht
  · obtain ⟨tokens, ht⟩ := List.exists_mem_of_ne_nil _ hne
    exact List.ne_nil_of_mem ((mem_alternatives_ruleOf hb).mpr (mem_clauses.mpr ⟨r, hr, rfl, ht⟩))

theorem prints_ruleOf (hw : Worded (g.ruleOf n)) (hne : (g.ruleOf n).alternatives ≠ []) :
    Prints ⟨n, (g.productionsOf n).map Production.rightText⟩ (g.ruleOf n) where
  denotes := by
    refine ⟨spells_toList hw.1, ?_⟩
    rw [ruleOf, List.forall₂_map_left_iff, List.forall₂_map_right_iff, List.forall₂_same]
    exact fun p hp => spells_intercalate (hw.2 _ (List.mem_map_of_mem hp))
  alternatives_ne_nil := hne
  left_line := newline_notMem_of_isWord hw.1
  rights_line := List.forall_mem_map.mpr fun p hp =>
    newline_notMem_intercalate (hw.2 _ (List.mem_map_of_mem hp))

/-- What is printed can be read, whatever the layout of each rule. -/
theorem exists_ofText_reports {text : String} (h : Grammar.ofText text = .ok g)
    (width : RuleReport → Nat) (multiline : RuleReport → Bool) :
    ∃ g', Grammar.ofText (textLines (g.productionsReport.rules.map fun p =>
      p.plain (width p) (multiline p))) = .ok g' ∧ Regroups g' g := by
  obtain ⟨rules, hrules, h⟩ := bind_eq_ok_iff.mp h
  have hb := builds_of_ofRules h
  have hw := (ofText_eq_ok_iff.mp hrules).wellFormed nofun
  have hgrouped := fun n (hn : n ∈ g.nonTerminals) => wellFormed_ruleOf hb hw hn
  have hprints : List.Forall₂ Prints g.productionsReport.rules g.grouped := by
    rw [productionsReport, grouped, List.forall₂_map_left_iff, List.forall₂_map_right_iff,
      List.forall₂_same]
    exact fun n hn => prints_ruleOf (hgrouped n hn).1 (hgrouped n hn).2.2
  have hplain : ∀ r ∈ g.grouped, Plain r := List.forall_mem_map.mpr fun n hn => (hgrouped n hn).2.1
  have hne : (g.productionsReport.rules.map fun p => p.plain (width p) (multiline p)) ≠ [] := by
    simpa [productionsReport] using List.ne_nil_of_mem g.start_declared
  obtain ⟨g', hg'⟩ := exists_ofRules_grouped hb
  have hwrites := writes_reports hprints width multiline
  rw [← lines_textLines hne] at hwrites
  exact ⟨g', (hwrites.ofText_eq hplain).trans hg', regroups_of_builds hb (builds_of_ofRules hg')⟩

/-- A grammar that was read from a text can be printed and read again, be it with a line for each
alternative or for each rule, and printing that once more changes nothing. -/
theorem exists_ofText_plain {text s : String} (h : Grammar.ofText text = .ok g)
    (hs : s = g.productionsReport.plain ∨ ∃ width : RuleReport → Nat,
      s = textLines (g.productionsReport.rules.map fun p => p.plain (width p) false)) :
    ∃ g', Grammar.ofText s = .ok g' ∧ Regroups g' g ∧
      g'.productionsReport.plain = g.productionsReport.plain := by
  obtain ⟨g', hg', hr⟩ : ∃ g', Grammar.ofText s = .ok g' ∧ Regroups g' g := by
    obtain rfl | ⟨width, rfl⟩ := hs
    · exact exists_ofText_reports h (fun _ => g.productionsReport.leftWidth) fun _ => true
    · exact exists_ofText_reports h width fun _ => false
  exact ⟨g', hg', hr, congrArg ProductionsReport.plain hr.productionsReport_eq⟩

theorem exists_ofText_plain_both : ∃ g,
    Grammar.ofText "E-> T x|>\n\nT ->ε|- T\r\nE->E'" = .ok g ∧
    g.productionsReport.plain = "E -> T x\n   | >\n   | E'\nT -> ε\n   | - T" ∧
    (∃ g', Grammar.ofText "E -> T x\n   | >\n   | E'\nT -> ε\n   | - T" = .ok g' ∧ Regroups g' g ∧
      g'.productionsReport.plain = g.productionsReport.plain) ∧
    ∃ g', Grammar.ofText "  E -> T x | > | E'\n  T -> ε | - T" = .ok g' ∧ Regroups g' g ∧
      g'.productionsReport.plain = g.productionsReport.plain := by
  obtain ⟨g, h, hp, hs⟩ : ∃ g, Grammar.ofText "E-> T x|>\n\nT ->ε|- T\r\nE->E'" = .ok g ∧
      g.productionsReport.plain = "E -> T x\n   | >\n   | E'\nT -> ε\n   | - T" ∧
      textLines (g.productionsReport.rules.map fun p => p.plain 3 false) =
        "  E -> T x | > | E'\n  T -> ε | - T" := ⟨_, rfl, by decide +kernel, by decide +kernel⟩
  exact ⟨g, h, hp, exists_ofText_plain h (.inl hp.symm),
    exists_ofText_plain h (.inr ⟨fun _ => 3, hs.symm⟩)⟩

end Grammar

end Predictive
