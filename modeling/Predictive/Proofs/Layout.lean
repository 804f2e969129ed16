import Predictive.Proofs.Building
import Predictive.Proofs.Reading

namespace Predictive

variable {l body gap text : List Char} {ls : List (List Char)} {alternatives : List (List String)}
  {left : String}

/-- The text consists of the lines, which end with a line feed, with or without a carriage return
before it; what follows the last end is a line as well. -/
inductive Lined : List Char → List (List Char) → Prop
  | last {l : List Char} : '\n' ∉ l → Lined l [l]
  | lineFeed {l rest : List Char} {ls : List (List Char)} : '\n' ∉ l → Lined rest ls →
      Lined (l ++ '\n' :: rest) (l :: ls)
  | carriageReturn {l rest : List Char} {ls : List (List Char)} : '\n' ∉ l → Lined rest ls →
      Lined (l ++ '\r' :: '\n' :: rest) (l :: ls)

/-- The text spells the alternatives, with a bar between two of them. -/
inductive Alternates : List Char → List (List String) → Prop
  | last {piece : List Char} {tokens : List String} : Spells piece tokens → Alternates piece [tokens]
  | cons {piece body : List Char} {tokens : List String} {alternatives : List (List String)} :
      Spells piece tokens → Alternates body alternatives →
      Alternates (piece ++ '|' :: body) (tokens :: alternatives)

namespace Alternates

theorem ne_nil (h : Alternates body alternatives) : alternatives ≠ [] := by
  cases h <;> simp

theorem append_gap (h : Alternates body alternatives) (hgap : Blank gap) :
    Alternates (body ++ gap) alternatives := by
  induction h with
  | last hs => exact .last (hs.append_gap hgap)
  | cons hs _ ih =>
    rw [List.append_assoc, List.cons_append]
    exact .cons hs ih

theorem arrowless (h : Alternates body alternatives) (hp : Rule.PlainTokens alternatives) :
    Arrowless body := by
  induction h with
  | last hs => exact arrowless_of_spells hs fun w hw => (hp _ List.mem_cons_self w hw).1
  | @cons piece body _ _ hs _ ih =>
    have ⟨ht, hp⟩ := List.forall_mem_cons.mp hp
    have hpiece : Arrowless piece := arrowless_of_spells hs fun w hw => (ht w hw).1
    have hbody : Arrowless ('|' :: body) := arrowless_cons.mpr ⟨by simp, ih hp⟩
    exact arrowless_append.mpr ⟨hpiece, hbody, by simp⟩

theorem bar_notMem {piece : List Char} {tokens : List String} (hs : Spells piece tokens)
    (ht : ∀ w ∈ tokens, '|' ∉ w.toList) : '|' ∉ piece := by
  intro hbar
  obtain hb | ⟨w, hw, hbar⟩ := hs.mem hbar
  · cases hb
  · exact ht w hw hbar

theorem readAlternatives_eq (h : Alternates body alternatives) (hp : Rule.PlainTokens alternatives) :
    Line.readAlternatives body = alternatives := by
  induction h with
  | last hs =>
    have hbar := bar_notMem hs fun w hw => (hp _ List.mem_cons_self w hw).2
    rw [Line.readAlternatives, List.splitOn_eq_singleton hbar, List.map_cons, words_of_spells hs]
    rfl
  | cons hs _ ih =>
    have ⟨ht, hp⟩ := List.forall_mem_cons.mp hp
    have hbar := bar_notMem hs fun w hw => (ht w hw).2
    rw [Line.readAlternatives, List.splitOn_append_cons_self_of_not_mem hbar, List.map_cons,
      words_of_spells hs]
    exact congrArg _ (ih hp)

end Alternates

namespace Rule

variable {owed : List (List String)} {rules : List Rule} {previous : Option String}

/-- The lines write the rules in order, after the alternatives `owed` that the rule above them still
lacks. A rule begins with its left side and an arrow, and before each of its bars it may go on with
a line of its own. Blank lines may stand anywhere. -/
inductive Writes : List (List Char) → (owed : List (List String)) → List Rule → Prop
  | nil : Writes [] [] []
  | blank {l : List Char} {ls : List (List Char)} {owed : List (List String)} {rules : List Rule} :
      Blank l → Writes ls owed rules → Writes (l :: ls) owed rules
  | rule {before body : List Char} {ls : List (List Char)} {left : String}
      {here owed : List (List String)} {rules : List Rule} : Spells before [left] →
      Alternates body here → Writes ls owed rules →
      Writes ((before ++ (arrow ++ body)) :: ls) [] (⟨left, here ++ owed⟩ :: rules)
  | continuation {gap body : List Char} {ls : List (List Char)} {here owed : List (List String)}
      {rules : List Rule} : Blank gap → Alternates body here → Writes ls owed rules →
      Writes ((gap ++ '|' :: body) :: ls) (here ++ owed) rules

/-- The text writes the rules, in one of the layouts that the form for texts leaves open. -/
def Written (text : String) (rules : List Rule) : Prop :=
  ∃ ls, Lined text.toList ls ∧ Writes ls [] rules

theorem plainTokens_append {as bs : List (List String)} :
    PlainTokens (as ++ bs) ↔ PlainTokens as ∧ PlainTokens bs :=
  List.forall_mem_append

theorem isRule_of_alternates {before : List Char} (hs : Spells before [left])
    (hl : Arrowless left.toList) (ha : Alternates body alternatives)
    (hp : PlainTokens alternatives) : Line.IsRule (before ++ (arrow ++ body)) left body := by
  have hb : Arrowless before := arrowless_of_spells hs (by simpa using hl)
  exact ⟨before, rfl, hb, ha.arrowless hp, hs⟩

theorem isContinuation_of_alternates (hgap : Blank gap) (ha : Alternates body alternatives)
    (hp : PlainTokens alternatives) : Line.IsContinuation (gap ++ '|' :: body) body := by
  have hbody : Arrowless ('|' :: body) := arrowless_cons.mpr ⟨by simp, ha.arrowless hp⟩
  have harrow : Arrowless (gap ++ '|' :: body) :=
    arrowless_append.mpr ⟨arrowless_of_blank hgap, hbody, by simp⟩
  exact ⟨harrow, gap, hgap, rfl⟩

/-- What follows a rule for `left` is read to the alternatives that this rule lacks and to the rules
written after it, though a continuation becomes a rule of its own. -/
theorem Writes.exists_reads_below (h : Writes ls owed rules) (ho : PlainTokens owed)
    (hp : ∀ r ∈ rules, Plain r) (left : String) : ∃ rs, Reads (some left) ls rs ∧
      clauses rs = owed.map (left, ·) ++ clauses rules ∧
      (left :: rs.map Rule.left).eraseDups = (left :: rules.map Rule.left).eraseDups := by
  -- A rule brings its own left side, and a continuation keeps the one above.
  induction h generalizing left with
  | nil => exact ⟨[], .nil, rfl, rfl⟩
  | blank hl _ ih =>
    obtain ⟨rs, hrs, hc, hd⟩ := ih ho hp left
    exact ⟨rs, .blank hl hrs, hc, hd⟩
  | @rule before body ls left' here owed rules hs ha _ ih =>
    have ⟨⟨hleft, hplain⟩, hp⟩ := List.forall_mem_cons.mp hp
    have ⟨hhere, ho⟩ := plainTokens_append.mp hplain
    obtain ⟨rs, hrs, hc, hd⟩ := ih ho hp left'
    refine ⟨_, .rule (isRule_of_alternates hs hleft ha hhere) hrs, ?_, eraseDups_cons_congr left hd⟩
    rw [clauses_cons, clauses_cons, ha.readAlternatives_eq hhere, hc, List.map_append,
      List.append_assoc]
    rfl
  | @continuation gap body ls here owed rules hgap ha _ ih =>
    have ⟨hhere, ho⟩ := plainTokens_append.mp ho
    obtain ⟨rs, hrs, hc, hd⟩ := ih ho hp left
    refine ⟨_, .continuation (isContinuation_of_alternates hgap ha hhere) hrs, ?_, ?_⟩
    · rw [clauses_cons, ha.readAlternatives_eq hhere, hc, List.map_append, List.append_assoc]
    · rw [List.map_cons, eraseDups_cons_cons, hd]

theorem Writes.exists_reads (h : Writes ls [] rules) (hp : ∀ r ∈ rules, Plain r) :
    ∃ rs, Reads previous ls rs ∧ clauses rs = clauses rules ∧ declared rs = declared rules := by
  generalize ho : ([] : List (List String)) = owed at h
  induction h with
  | nil => exact ⟨[], .nil, rfl, rfl⟩
  | blank hl _ ih =>
    obtain ⟨rs, hrs, hc, hd⟩ := ih hp ho
    exact ⟨rs, .blank hl hrs, hc, hd⟩
  | @rule before body ls left here owed rules hs ha hw _ =>
    have ⟨⟨hleft, hplain⟩, hp⟩ := List.forall_mem_cons.mp hp
    have ⟨hhere, ho⟩ := plainTokens_append.mp hplain
    obtain ⟨rs, hrs, hc, hd⟩ := hw.exists_reads_below ho hp left
    refine ⟨_, .rule (isRule_of_alternates hs hleft ha hhere) hrs, ?_, hd⟩
    rw [clauses_cons, clauses_cons, ha.readAlternatives_eq hhere, hc, List.map_append,
      List.append_assoc]
  | continuation _ ha _ _ => exact absurd (List.append_eq_nil_iff.mp ho.symm).1 ha.ne_nil

/-- Lines that write rules give the grammar of these rules. -/
theorem Writes.ofText_eq {text : String} (h : Writes (lines text.toList) [] rules)
    (hp : ∀ r ∈ rules, Plain r) : Grammar.ofText text = Grammar.ofRules rules := by
  obtain ⟨rs, hrs, hc, hd⟩ := h.exists_reads hp
  exact hrs.ofText_eq.trans (ofRules_congr hd hc)

/-- Blanks at the end of a line make no difference. -/
theorem Writes.append_gaps {ls' : List (List Char)} (h : Writes ls owed rules)
    (hl : List.Forall₂ (fun l l' => ∃ gap, Blank gap ∧ l' = l ++ gap) ls ls') :
    Writes ls' owed rules := by
  induction h generalizing ls' with
  | nil =>
    obtain rfl := List.forall₂_nil_left_iff.mp hl
    exact .nil
  | blank hb _ ih =>
    obtain ⟨_, ls', ⟨gap, hgap, rfl⟩, hls, rfl⟩ := List.forall₂_cons_left_iff.mp hl
    exact .blank (blank_append.mpr ⟨hb, hgap⟩) (ih hls)
  | rule hs ha _ ih =>
    obtain ⟨_, ls', ⟨gap, hgap, rfl⟩, hls, rfl⟩ := List.forall₂_cons_left_iff.mp hl
    rw [List.append_assoc, List.append_assoc]
    exact .rule hs (ha.append_gap hgap) (ih hls)
  | continuation hb ha _ ih =>
    obtain ⟨_, ls', ⟨gap, hgap, rfl⟩, hls, rfl⟩ := List.forall₂_cons_left_iff.mp hl
    rw [List.append_assoc, List.cons_append]
    exact .continuation hb (ha.append_gap hgap) (ih hls)

end Rule

/-- A carriage return in front of a line feed stays at the end of its line. -/
theorem Lined.lines_eq (h : Lined text ls) :
    List.Forall₂ (fun l l' => ∃ gap, Blank gap ∧ l' = l ++ gap) ls (lines text) := by
  induction h with
  | @last l hl =>
    rw [lines, List.splitOn_eq_singleton hl]
    exact .cons ⟨[], blank_nil, by simp⟩ .nil
  | @lineFeed l rest ls hl _ ih =>
    rw [lines, List.splitOn_append_cons_self_of_not_mem hl]
    exact .cons ⟨[], blank_nil, by simp⟩ ih
  | @carriageReturn l rest ls hl _ ih =>
    have hr : '\n' ∉ l ++ ['\r'] := by simpa using hl
    have he : l ++ '\r' :: '\n' :: rest = (l ++ ['\r']) ++ '\n' :: rest := by simp
    rw [he, lines, List.splitOn_append_cons_self_of_not_mem hr]
    exact .cons ⟨['\r'], blank_cons.mpr ⟨rfl, blank_nil⟩, rfl⟩ ih

namespace Rule

/-- A text and a list of pairs of texts that hold the same rules give the same grammar, whatever the
layout of the text, or are refused for the same reason, which lies in an alternative or in a name
that is reserved. -/
theorem ofText_eq_ofTexts {text : String} {texts : List (String × List String)} {rules : List Rule}
    (hne : rules ≠ []) (hp : ∀ r ∈ rules, Plain r) (hw : Written text rules)
    (ht : List.Forall₂ Denotes texts rules) :
    Grammar.ofText text = (ofTexts texts >>= Grammar.ofRules) ∧
      ∀ e, Grammar.ofText text = .error e → ∃ left, e = .emptyAlternative left ∨
        e = .epsilonInSequence left ∨ ∃ token, e = .reservedToken left token := by
  obtain ⟨ls, hl, hw⟩ := hw
  have he : Grammar.ofText text = Grammar.ofRules rules := (hw.append_gaps hl.lines_eq).ofText_eq hp
  refine ⟨?_, fun e h => ?_⟩
  · rw [he, ofTexts_eq_ok_iff.mpr ht]
    rfl
  · rw [he] at h
    obtain h | ⟨-, ⟨hd, -⟩ | h⟩ := ofRules_eq_error_iff.mp h
    · obtain ⟨name, -, hname⟩ := List.exists_of_findSome?_eq_some h
      unfold reservedName? at hname
      split at hname
      · exact ⟨name, .inr (.inr ⟨name, (Option.some.inj hname).symm⟩)⟩
      · cases hname
    · exact absurd (declared_eq_nil_iff.mp hd) hne
    · obtain ⟨⟨left, tokens⟩, -, hf⟩ := List.exists_of_findSome?_eq_some h
      refine ⟨left, ?_⟩
      cases fault?_eq_some_iff.mp hf with
      | empty => exact .inl rfl
      | epsilon => exact .inr (.inl rfl)
      | reserved => exact .inr (.inr ⟨_, rfl⟩)

theorem ofText_eq_ofTexts_two_rules : ∃ text texts rules,
    text = "S->a S|b\r\n\n  | ε\n T ->x" ∧ texts = [("S", ["a S", "b", "ε"]), ("T ", [" x"])] ∧
      rules = [⟨"S", [["a", "S"], ["b"], ["ε"]]⟩, ⟨"T", [["x"]]⟩] ∧ rules ≠ [] ∧
      (∀ r ∈ rules, Plain r) ∧ Written text rules ∧ List.Forall₂ Denotes texts rules ∧
      Grammar.ofText text = (ofTexts texts >>= Grammar.ofRules) := by
  have hplain : ∀ r ∈ [⟨"S", [["a", "S"], ["b"], ["ε"]]⟩, ⟨"T", [["x"]]⟩], Plain r := by
    simp [Plain, PlainTokens, arrowless_cons, arrowless_nil]
  have hlined : Lined "S->a S|b\r\n\n  | ε\n T ->x".toList
      ["S->a S|b".toList, "".toList, "  | ε".toList, " T ->x".toList] := by
    refine .carriageReturn (l := "S->a S|b".toList) (by decide) ?_
    refine .lineFeed (l := "".toList) (by decide) ?_
    refine .lineFeed (l := "  | ε".toList) (by decide) ?_
    exact .last (by decide)
  have hwrites : Writes ["S->a S|b".toList, "".toList, "  | ε".toList, " T ->x".toList] []
      [⟨"S", [["a", "S"], ["b"], ["ε"]]⟩, ⟨"T", [["x"]]⟩] := by
    have hs : Spells "S".toList ["S"] := words_eq_iff.mp (by decide)
    have ht : Spells " T ".toList ["T"] := words_eq_iff.mp (by decide)
    have has : Spells "a S".toList ["a", "S"] := words_eq_iff.mp (by decide)
    have hb : Alternates "b".toList [["b"]] := .last (words_eq_iff.mp (by decide))
    have hepsilon : Alternates " ε".toList [["ε"]] := .last (words_eq_iff.mp (by decide))
    have hx : Alternates "x".toList [["x"]] := .last (words_eq_iff.mp (by decide))
    have hgap : Blank "  ".toList := spells_nil_iff.mp (words_eq_iff.mp (by decide))
    have hlast : Writes [" T ->x".toList] [] [⟨"T", [["x"]] ++ []⟩] := .rule ht hx .nil
    have howed : Writes ["".toList, "  | ε".toList, " T ->x".toList] ([["ε"]] ++ [])
      [⟨"T", [["x"]]⟩] := .blank blank_nil (.continuation hgap hepsilon hlast)
    exact .rule hs (.cons has hb) howed
  have htexts : List.Forall₂ Denotes [("S", ["a S", "b", "ε"]), ("T ", [" x"])]
      [⟨"S", [["a", "S"], ["b"], ["ε"]]⟩, ⟨"T", [["x"]]⟩] := ofTexts_eq_ok_iff.mp rfl
  have hwritten : Written "S->a S|b\r\n\n  | ε\n T ->x" _ := ⟨_, hlined, hwrites⟩
  exact ⟨_, _, _, rfl, rfl, rfl, List.cons_ne_nil _ _, hplain, hwritten, htexts,
    (ofText_eq_ofTexts (List.cons_ne_nil _ _) hplain hwritten htexts).1⟩

end Rule

end Predictive
