import Mathlib.Data.List.Forall2
import Predictive.Proofs.Steps
import Predictive.Proofs.TableReport
import Predictive.Report.Format

namespace Predictive.Latex

/-- The characters that have no backslash directly before them, in a text behind a character that is
a backslash or not. -/
def bareFrom (escaped : Bool) : List Char → List Char
  | [] => []
  | c :: cs => if escaped then bareFrom (c = '\\') cs else c :: bareFrom (c = '\\') cs

def bare (s : String) : List Char := bareFrom false s.toList

/-- The rows of a table: two backslashes end one. -/
def splitRows : List Char → List (List Char)
  | [] => [[]]
  | '\\' :: '\\' :: cs => [] :: splitRows cs
  | c :: cs => (splitRows cs).modifyHead (c :: ·)

/-- The numbers of separators of columns in the rows. -/
def separators (s : String) : List Nat :=
  (splitRows s.toList).map fun row => (bareFrom false row).count '&'

example : separators "a & b\\\\\nc \\& d" = [1, 0] := by decide

/-- Braces are opened as often as closed, and up to any place not closed more often than opened. -/
structure Balanced (cs : List Char) : Prop where
  count_eq : cs.count '\x7d' = cs.count '\x7b'
  count_le : ∀ l, l <+: cs → l.count '\x7d' ≤ l.count '\x7b'

/-- A text that can stand in a document: braces that are not escaped are balanced, and a special
character of another kind is escaped or does not occur. The text escapes nothing behind it. -/
structure Sound (s : String) : Prop where
  closed : s.toList.getLast? ≠ some '\\'
  balanced : Balanced (bare s)
  escaped : ∀ c ∈ bare s, c ∉ ['%', '$', '#', '_']
  absent : ∀ c ∈ s.toList, c ∉ ['~', '^']

/-- A part of one row of a table, with so many separators of columns. -/
structure RowPart (n : Nat) (s : String) : Prop where
  sound : Sound s
  count_eq : (bare s).count '&' = n
  within : ¬ ['\\', '\\'] <:+: s.toList

/-- What stands between two rows, a line below the upper one included. -/
def rowEnds : List String := ["\\\\\n", "\\\\\n ", "\\\\\\hline\n"]

/-- The text consists of rows with so many separators each. -/
inductive Rows : List Nat → String → Prop
  | last {n s} : RowPart n s → Rows [n] s
  | cons {n s e ns t} : RowPart n s → e ∈ rowEnds → Rows ns t → Rows (n :: ns) (s ++ (e ++ t))

instance (cs : List Char) : Decidable (Balanced cs) :=
  decidable_of_iff (cs.count '\x7d' = cs.count '\x7b' ∧
      ∀ l ∈ cs.inits, l.count '\x7d' ≤ l.count '\x7b') (by
    simp only [List.mem_inits]
    exact ⟨fun h => ⟨h.1, h.2⟩, fun h => ⟨h.1, h.2⟩⟩)

instance (s : String) : Decidable (Sound s) :=
  decidable_of_iff (s.toList.getLast? ≠ some '\\' ∧ Balanced (bare s) ∧
      (bare s).all (· ∉ ['%', '$', '#', '_']) ∧ s.toList.all (· ∉ ['~', '^'])) (by
    simp only [List.all_eq_true, decide_eq_true_eq]
    exact ⟨fun ⟨hc, hb, he, ha⟩ => ⟨hc, hb, he, ha⟩, fun ⟨hc, hb, he, ha⟩ => ⟨hc, hb, he, ha⟩⟩)

instance (n : Nat) (s : String) : Decidable (RowPart n s) :=
  decidable_of_iff (Sound s ∧ (bare s).count '&' = n ∧ ¬ ['\\', '\\'] <:+: s.toList)
    ⟨fun ⟨hs, hc, hw⟩ => ⟨hs, hc, hw⟩, fun ⟨hs, hc, hw⟩ => ⟨hs, hc, hw⟩⟩

variable {s t e : String} {l m cs : List Char} {ws : List String} {ns ms : List Nat} {n k : Nat}
  {escaped : Bool}

theorem getLast?_ne_of_cons {c d : Char} (h : (c :: l).getLast? ≠ some d) :
    l.getLast? ≠ some d := by
  cases l with
  | nil => exact nofun
  | cons _ _ => simpa using h

theorem bareFrom_append (h : l.getLast? ≠ some '\\') (hl : l = [] → escaped = false) :
    bareFrom escaped (l ++ m) = bareFrom escaped l ++ bareFrom false m := by
  induction l generalizing escaped with
  | nil =>
    rw [hl rfl]
    rfl
  | cons c l ih =>
    have hc : l = [] → decide (c = '\\') = false := by
      rintro rfl
      simpa using h
    cases escaped <;> simp [bareFrom, ih (getLast?_ne_of_cons h) hc]

theorem splitRows_cons {c : Char} (h : ¬ (c = '\\' ∧ l.head? = some '\\')) :
    splitRows (c :: l) = (splitRows l).modifyHead (c :: ·) := by
  rw [splitRows]
  rintro l' rfl rfl
  exact h ⟨rfl, rfl⟩

/-- What ends no row stays in front of the first row of the rest. -/
theorem splitRows_append (h : ¬ ['\\', '\\'] <:+: l) (hl : l.getLast? ≠ some '\\') :
    splitRows (l ++ m) = (splitRows m).modifyHead (l ++ ·) := by
  induction l with
  | nil =>
    rw [List.nil_append]
    cases splitRows m <;> rfl
  | cons c l ih =>
    rw [pair_isInfix_cons, not_or] at h
    -- The part does not end with a backslash, so that none of its own makes a pair with the rest.
    have hc : ¬ (c = '\\' ∧ (l ++ m).head? = some '\\') := by
      cases l with
      | nil => exact fun hc => hl (congrArg some hc.1)
      | cons d l => exact h.1
    rw [List.cons_append, splitRows_cons hc, ih h.2 (getLast?_ne_of_cons hl),
      List.modifyHead_modifyHead]
    rfl

theorem closed_append (hs : s.toList.getLast? ≠ some '\\') (ht : t.toList.getLast? ≠ some '\\') :
    (s ++ t).toList.getLast? ≠ some '\\' := by
  rw [String.toList_append, List.getLast?_append]
  cases h : t.toList.getLast? with
  | none => exact hs
  | some c => rwa [h] at ht

theorem bare_append (h : s.toList.getLast? ≠ some '\\') : bare (s ++ t) = bare s ++ bare t := by
  rw [bare, String.toList_append, bareFrom_append h fun _ => rfl]
  rfl

theorem bare_braced (h : s.toList.getLast? ≠ some '\\') :
    bare (braced s) = '\x7b' :: (bare s ++ ['\x7d']) := by
  rw [braced, bare_append (closed_append (by decide) h), bare_append (by decide)]
  rfl

theorem Balanced.append (hl : Balanced l) (hm : Balanced m) : Balanced (l ++ m) := by
  refine ⟨by rw [List.count_append, List.count_append, hl.count_eq, hm.count_eq], ?_⟩
  intro p hp
  obtain hp | ⟨q, rfl⟩ := List.prefix_or_prefix_of_prefix hp (List.prefix_append l m)
  · exact hl.count_le p hp
  · have hq := hm.count_le q ((List.prefix_append_right_inj l).mp hp)
    rw [List.count_append, List.count_append, hl.count_eq]
    exact Nat.add_le_add_left hq _

theorem Balanced.braced (h : Balanced l) : Balanced ('\x7b' :: (l ++ ['\x7d'])) := by
  refine ⟨by simp [h.count_eq], ?_⟩
  intro p hp
  obtain rfl | ⟨q, rfl, hq⟩ := List.prefix_cons_iff.mp hp
  · exact Nat.le_refl _
  · obtain rfl | hq := List.prefix_concat_iff.mp hq
    · simp [h.count_eq]
    · have hle := h.count_le q hq
      simp only [List.count_cons]
      simp
      omega

namespace Sound

theorem append (hs : Sound s) (ht : Sound t) : Sound (s ++ t) := by
  refine ⟨closed_append hs.closed ht.closed, ?_, ?_, ?_⟩
  · rw [bare_append hs.closed]
    exact hs.balanced.append ht.balanced
  · rw [bare_append hs.closed]
    exact List.forall_mem_append.mpr ⟨hs.escaped, ht.escaped⟩
  · rw [String.toList_append]
    exact List.forall_mem_append.mpr ⟨hs.absent, ht.absent⟩

theorem braced (h : Sound s) : Sound (braced s) := by
  refine ⟨closed_append (closed_append (by decide) h.closed) (by decide), ?_, ?_, ?_⟩
  · rw [bare_braced h.closed]
    exact h.balanced.braced
  · rw [bare_braced h.closed, List.forall_mem_cons, List.forall_mem_append,
      List.forall_mem_singleton]
    exact ⟨by decide, h.escaped, by decide⟩
  · have hbraces : (Latex.braced s).toList = '\x7b' :: (s.toList ++ ['\x7d']) := by
      simp [Latex.braced]
    rw [hbraces, List.forall_mem_cons, List.forall_mem_append, List.forall_mem_singleton]
    exact ⟨by decide, h.absent, by decide⟩

end Sound

namespace RowPart

theorem append (hs : RowPart n s) (ht : RowPart k t) : RowPart (n + k) (s ++ t) := by
  refine ⟨hs.sound.append ht.sound, ?_, ?_⟩
  · rw [bare_append hs.sound.closed, List.count_append, hs.count_eq, ht.count_eq]
  · rw [String.toList_append, pair_isInfix_append, not_or, not_or]
    exact ⟨hs.within, ht.within, fun h => hs.sound.closed h.1⟩

theorem braced (h : RowPart n s) : RowPart n (braced s) := by
  refine ⟨h.sound.braced, ?_, ?_⟩
  · rw [bare_braced h.sound.closed, ← h.count_eq]
    simp
  · simp [Latex.braced, pair_isInfix_append, pair_isInfix_cons, h.within]

theorem intercalate (he : RowPart k e) (h : ∀ w ∈ ws, RowPart 0 w) :
    RowPart (k * (ws.length - 1)) (e.intercalate ws) := by
  induction ws with
  | nil => exact (by decide : RowPart 0 "")
  | cons w ws ih =>
    obtain ⟨hw, hws⟩ := List.forall_mem_cons.mp h
    cases ws with
    | nil => simpa using hw
    | cons v ws =>
      rw [String.intercalate_cons_cons]
      have hrow := (hw.append he).append (ih hws)
      have hcount : 0 + k + k * ((v :: ws).length - 1) = k * ((w :: v :: ws).length - 1) := by
        simp only [List.length_cons, Nat.add_sub_cancel, Nat.mul_add]
        omega
      rwa [hcount] at hrow

theorem intercalate_zero (he : RowPart 0 e) (h : ∀ w ∈ ws, RowPart 0 w) :
    RowPart 0 (e.intercalate ws) := by
  have hrow := he.intercalate h
  rwa [Nat.zero_mul] at hrow

end RowPart

/-- The characters that mean something else than themselves. -/
def special : List Char := ['\\', '&', '\x7b', '\x7d', '%', '$', '#', '_', '~', '^']

theorem rowPart_singleton {c : Char} (h : c ∉ special) : RowPart 0 (.ofList [c]) := by
  have hb : bare (.ofList [c]) = [c] := by
    rw [bare, String.toList_ofList]
    rfl
  simp only [special, List.mem_cons, List.not_mem_nil, or_false, not_or] at h
  refine ⟨⟨?_, ?_, ?_, ?_⟩, ?_, ?_⟩
  · simp [h]
  · rw [hb]
    refine ⟨by simp [h], ?_⟩
    intro l hl
    have hle : l.count '\x7d' ≤ [c].count '\x7d' := hl.sublist.count_le _
    rw [List.count_singleton] at hle
    simp [h] at hle
    omega
  · rw [hb]
    exact List.forall_mem_singleton.mpr (by simp [h])
  · simp [h]
  · rw [hb]
    simp [h]
  · simp [pair_isInfix_cons]

theorem rowPart_escapeChar (c : Char) : RowPart 0 (.ofList (escapeChar c)) := by
  by_cases h : c ∈ special ++ ['[', ']', '<', '>', '!']
  · have hescaped : (special ++ ['[', ']', '<', '>', '!']).all fun c =>
        RowPart 0 (.ofList (escapeChar c)) := by decide
    exact of_decide_eq_true (List.all_eq_true.mp hescaped c h)
  · have hc : escapeChar c = [c] := by
      unfold escapeChar
      split <;> simp_all [special]
    rw [hc]
    exact rowPart_singleton fun hm => h (List.mem_append_left _ hm)

theorem rowPart_escapeChars (cs : List Char) : RowPart 0 (.ofList (escapeChars cs)) := by
  induction cs with
  | nil => exact (by decide : RowPart 0 "")
  | cons c cs ih =>
    rw [escapeChars, String.ofList_append]
    refine RowPart.append (n := 0) ?_ ih
    split
    · decide
    · exact rowPart_escapeChar c

theorem rowPart_escape (s : String) : RowPart 0 (escape s) := rowPart_escapeChars s.toList

theorem rowPart_symbol (name : String) : RowPart 0 (symbol name) := by
  rw [symbol]
  split
  · decide
  · exact rowPart_escape name

theorem rowPart_spaced (h : ∀ w ∈ ws, RowPart 0 w) : RowPart 0 (spaced ws) :=
  .intercalate_zero (by decide) h

theorem rowPart_columns (ws : List String) (h : ∀ w ∈ ws, RowPart 0 w) :
    RowPart (ws.length - 1) (columns ws) := by
  have hrow := RowPart.intercalate (k := 1) (e := " & ") (by decide) h
  rwa [Nat.one_mul] at hrow

theorem rowPart_join (h : ∀ w ∈ ws, RowPart 0 w) : RowPart 0 (String.join ws) := by
  induction ws with
  | nil => exact (by decide : RowPart 0 "")
  | cons w ws ih =>
    obtain ⟨hw, hws⟩ := List.forall_mem_cons.mp h
    rw [String.join_cons]
    exact hw.append (ih hws)

theorem rowPart_sequence (text : String) : RowPart 0 (sequence text) :=
  rowPart_spaced (List.forall_mem_map.mpr fun word _ => rowPart_symbol word)

theorem RowPart.separators_append (h : RowPart n s) :
    separators (s ++ t) = (separators t).modifyHead (n + ·) := by
  have hcount : ∀ row, (bareFrom false (s.toList ++ row)).count '&' =
      n + (bareFrom false row).count '&' := by
    intro row
    rw [bareFrom_append h.sound.closed fun _ => rfl, List.count_append, ← h.count_eq]
    rfl
  rw [separators, String.toList_append, splitRows_append h.within h.sound.closed, separators]
  cases splitRows t.toList with
  | nil => rfl
  | cons row rows => simp [hcount]

theorem separators_rowEnd (h : e ∈ rowEnds) (t : String) :
    separators (e ++ t) = 0 :: separators t := by
  obtain ⟨rest, hrest, rfl⟩ : ∃ rest, RowPart 0 rest ∧ e = "\\\\" ++ rest := by
    simp only [rowEnds, List.mem_cons, List.not_mem_nil, or_false] at h
    obtain rfl | rfl | rfl := h
    · exact ⟨"\n", by decide, by decide⟩
    · exact ⟨"\n ", by decide, by decide⟩
    · exact ⟨"\\hline\n", by decide, by decide⟩
  have hend : separators ("\\\\" ++ (rest ++ t)) = 0 :: separators (rest ++ t) := by
    simp [separators, splitRows, bareFrom]
  rw [String.append_assoc, hend, hrest.separators_append]
  cases separators t <;> simp

theorem sound_of_mem_rowEnds (h : e ∈ rowEnds) : Sound e := by
  revert e
  decide

namespace Rows

theorem sound (h : Rows ns s) : Sound s := by
  induction h with
  | last hs => exact hs.sound
  | cons hs he _ ih => exact hs.sound.append ((sound_of_mem_rowEnds he).append ih)

theorem separators_eq (h : Rows ns s) : separators s = ns := by
  induction h with
  | @last n s hs =>
    rw [← String.append_empty (s := s), hs.separators_append]
    rfl
  | cons hs he _ ih =>
    rw [hs.separators_append, separators_rowEnd he, ih, List.modifyHead_cons, Nat.add_zero]

theorem append (h : Rows ns s) (he : e ∈ rowEnds) (h' : Rows ms t) :
    Rows (ns ++ ms) (s ++ (e ++ t)) := by
  induction h with
  | last hs => exact .cons hs he h'
  | cons hs hd _ ih =>
    rw [String.append_assoc, String.append_assoc]
    exact .cons hs hd ih

/-- What is put behind the last row belongs to it. -/
theorem append_part (h : Rows ns s) (ht : RowPart 0 t) : Rows ns (s ++ t) := by
  induction h with
  | last hs => exact .last (hs.append ht)
  | cons hs he _ ih =>
    rw [String.append_assoc, String.append_assoc]
    exact .cons hs he ih

theorem intercalate {ws : List String} (he : e ∈ rowEnds) (hne : ns ≠ [])
    (h : List.Forall₂ RowPart ns ws) : Rows ns (e.intercalate ws) := by
  induction h with
  | nil => exact absurd rfl hne
  | @cons n w ns ws hw hws ih =>
    cases hws with
    | nil =>
      rw [String.intercalate_singleton]
      exact .last hw
    | cons hv hws =>
      rw [String.intercalate_cons_cons, String.append_assoc]
      exact .cons hw he (ih (List.cons_ne_nil _ _))

end Rows

end Predictive.Latex

namespace Predictive

open Latex

variable {g : Grammar}

theorem RuleReport.rowPart_latex (r : RuleReport) : RowPart 2 r.latex := by
  have hright : RowPart 0 (" \\mid ".intercalate (r.rights.map sequence)) :=
    .intercalate_zero (by decide) (List.forall_mem_map.mpr fun text _ => rowPart_sequence text)
  refine rowPart_columns [_, _, _] ?_
  simp only [List.forall_mem_cons]
  exact ⟨rowPart_escape _, by decide, hright, List.forall_mem_nil _⟩

namespace SetsRow

theorem rowPart_latexSet (names : List String) : RowPart 0 (latexSet names) :=
  .intercalate_zero (by decide) (List.forall_mem_map.mpr fun name _ => rowPart_symbol name)

theorem rowPart_latex (r : SetsRow) : RowPart 3 r.latex := by
  have hnullable : ∀ b : Bool, RowPart 0 (if b then "true" else "false") := by decide
  refine rowPart_columns [_, _, _, _] ?_
  simp only [List.forall_mem_cons]
  exact ⟨rowPart_escape _, hnullable _, rowPart_latexSet _, rowPart_latexSet _,
    List.forall_mem_nil _⟩

end SetsRow

namespace CellReport

theorem rowPart_latexWord (word : String) : RowPart 0 (latexWord word) := by
  rw [latexWord]
  split
  · decide
  · exact rowPart_symbol word

theorem rowPart_latexProduction (text : String) : RowPart 0 (latexProduction text) :=
  rowPart_spaced (List.forall_mem_map.mpr fun word _ => rowPart_latexWord word)

theorem rowPart_latex (c : CellReport) : RowPart 0 c.latex := by
  have htext : RowPart 0 ("; ".intercalate (c.productions.map latexProduction)) :=
    .intercalate_zero (by decide)
      (List.forall_mem_map.mpr fun text _ => rowPart_latexProduction text)
  have hred : RowPart 0 ("\\color" ++ braced "red") := by decide
  rw [latex]
  split
  · exact (hred.append htext).braced
  · exact htext

end CellReport

namespace TableReport

theorem rowPart_corner (r : TableReport) : RowPart 0 ("\\[\\begin" ++ braced "array" ++
    braced ("c" ++ String.join (r.columns.map fun _ => "|l")) ++ "\n") := by
  have hspec : RowPart 0 (String.join (r.columns.map fun _ => "|l")) :=
    rowPart_join (List.forall_mem_map.mpr fun _ _ => by decide)
  have hbegin : RowPart 0 ("\\[\\begin" ++ braced "array") := by decide
  have hc : RowPart 0 "c" := by decide
  have hline : RowPart 0 "\n" := by decide
  exact (hbegin.append (hc.append hspec).braced).append hline

theorem rowPart_header (t : String) : RowPart 0 ("\\text" ++ braced (escape t)) := by
  have htext : RowPart 0 "\\text" := by decide
  exact htext.append (rowPart_escape t).braced

theorem rowPart_line (r : TableReport) (row : RowReport) :
    RowPart r.columns.length (Latex.columns (escape row.name :: r.line CellReport.latex row)) := by
  have hlength : (r.line CellReport.latex row).length = r.columns.length := by simp [line]
  rw [← hlength]
  apply rowPart_columns (escape row.name :: r.line CellReport.latex row)
  refine List.forall_mem_cons.mpr ⟨rowPart_escape _, List.forall_mem_map.mpr fun t _ => ?_⟩
  cases row.cell? t with
  | none => decide
  | some c => exact c.rowPart_latex

end TableReport

theorem StepReport.rowPart_latex (s : StepReport) : RowPart 2 (columns (s.cells.map escape)) :=
  rowPart_columns (s.cells.map escape) (List.forall_mem_map.mpr fun _ _ => rowPart_escape _)

theorem ValidationReport.rowPart_verdictText (r : ValidationReport) :
    RowPart 0 (r.verdictText escape) := by
  rw [verdictText]
  split
  · decide
  · have hrejected : RowPart 0 "rejected: " := by decide
    exact hrejected.append (rowPart_escape _)

namespace Latex

variable {α : Type} {f : α → String} {n : Nat}

theorem forall₂_rowPart (h : ∀ a, RowPart n (f a)) (l : List α) :
    List.Forall₂ RowPart (List.replicate l.length n) (l.map f) := by
  rw [← List.map_const', List.forall₂_map_left_iff, List.forall₂_map_right_iff, List.forall₂_same]
  exact fun a _ => h a

theorem rows_rows {l : List α} (h : ∀ a, RowPart n (f a)) (hne : l ≠ []) :
    Rows (List.replicate l.length n) (rows (l.map f)) :=
  Rows.intercalate (by decide) (by simpa using hne) (forall₂_rowPart h l)

end Latex

theorem ProductionsReport.rows_latex (r : ProductionsReport) :
    Rows (0 :: List.replicate r.rules.length 2 ++ [0]) r.latex := by
  have hrules := forall₂_rowPart RuleReport.rowPart_latex r.rules
  have hbegin : RowPart 0 ("\\[\\begin" ++ braced "array" ++ braced "cll") := by decide
  have hend : RowPart 0 ("\\end" ++ braced "array" ++ "\\]") := by decide
  exact Rows.intercalate (by decide) (by simp)
    (List.rel_append (.cons hbegin hrules) (.cons hend .nil))

theorem SetsReport.rows_latex {r : SetsReport} (hne : r.rows ≠ []) :
    Rows (3 :: List.replicate r.rows.length 3 ++ [0]) r.latex := by
  have hrows : Rows (List.replicate r.rows.length 3)
      ("\\\\\n ".intercalate (r.rows.map SetsRow.latex)) := by
    apply Rows.intercalate (by decide) (by simpa using hne)
    exact forall₂_rowPart SetsRow.rowPart_latex r.rows
  have hheader : RowPart 3 ("\\begin" ++ braced "tabular" ++ braced "c|c|c|c" ++ "\n" ++
      "Symbol & Nullable & First & Follow") := by decide
  have hend : RowPart 0 ("\\end" ++ braced "tabular") := by decide
  have hsplit : "Symbol & Nullable & First & Follow\\\\\\hline\n" =
      "Symbol & Nullable & First & Follow" ++ "\\\\\\hline\n" := by decide
  have hsplit' : "\\\\\n\\end" = "\\\\\n" ++ "\\end" := by decide
  have h := (Rows.last hheader).append (e := "\\\\\\hline\n") (by decide)
    (hrows.append (e := "\\\\\n") (by decide) (.last hend))
  unfold latex
  simp only [hsplit, hsplit', String.append_assoc] at h ⊢
  exact h

theorem TableReport.rows_latex {r : TableReport} (hne : r.rows ≠ []) :
    Rows (r.columns.length :: List.replicate r.rows.length r.columns.length) r.latex := by
  have hrows : Rows (List.replicate r.rows.length r.columns.length)
      (Latex.rows (r.rows.map fun row =>
        Latex.columns (escape row.name :: r.line CellReport.latex row))) :=
    rows_rows r.rowPart_line hne
  have hheader := rowPart_columns _ (List.forall_mem_cons.mpr
    ⟨r.rowPart_corner, List.forall_mem_map.mpr fun t (_ : t ∈ r.columns) => rowPart_header t⟩)
  rw [List.length_cons, List.length_map, Nat.add_sub_cancel] at hheader
  have hend : RowPart 0 ("\n\\end" ++ (braced "array" ++ "\\]")) := by decide
  have h := (Rows.last hheader).append (e := "\\\\\\hline\n") (by decide) (hrows.append_part hend)
  rw [latex]
  simp only [String.append_assoc] at h ⊢
  exact h

theorem ValidationReport.rows_latex (r : ValidationReport) :
    Rows (2 :: if r.steps.isEmpty then [0] else List.replicate r.steps.length 2) r.latex := by
  have hrows : Rows (if r.steps.isEmpty then [0] else List.replicate r.steps.length 2)
      (Latex.rows (r.steps.map fun s => Latex.columns (s.cells.map escape))) := by
    split
    · next he =>
      rw [List.isEmpty_iff.mp he]
      exact .last (by decide)
    · next he => exact rows_rows StepReport.rowPart_latex (mt List.isEmpty_iff.mpr he)
  have hheader : RowPart 2 ("\\begin" ++ braced "tabular" ++ braced "l|l|l" ++
      "\nStack & Input & Action") := by decide
  have hend : RowPart 0 ("\n\\end" ++ braced "tabular" ++ "\n\n\\texttt") := by decide
  have hcolon : RowPart 0 ": " := by decide
  have hsplit : "\nStack & Input & Action\\\\\\hline\n" =
      "\nStack & Input & Action" ++ "\\\\\\hline\n" := by decide
  have hverdict := (hend.append (rowPart_escape r.input).braced).append
    (hcolon.append r.rowPart_verdictText)
  have h := (Rows.last hheader).append (e := "\\\\\\hline\n") (by decide)
    (hrows.append_part hverdict)
  unfold latex
  simp only [hsplit, String.append_assoc] at h ⊢
  exact h

/-- No name of a symbol breaks a document, for any grammar and any line. In the productions each row
has two separators, in the sets three, in the table one for each terminal, as its header has, and in
the run two for each step. All four documents have balanced braces and escaped characters only. -/
theorem Table.latex_sound (T : Table g) (line : String) (withSteps : Bool) :
    separators g.productionsReport.latex = 0 :: List.replicate g.nonTerminals.length 2 ++ [0] ∧
    separators T.analysis.setsReport.latex = 3 :: List.replicate g.nonTerminals.length 3 ++ [0] ∧
    separators T.report.latex =
      T.columns.length :: List.replicate g.nonTerminals.length T.columns.length ∧
    separators (T.validationReport line withSteps).latex =
      2 :: (if withSteps then List.replicate (T.trace (words line.toList)).steps.length 2
        else [0]) ∧
    ∀ s ∈ [g.productionsReport.latex, T.analysis.setsReport.latex, T.report.latex,
      (T.validationReport line withSteps).latex], Sound s := by
  have hne : g.nonTerminals ≠ [] := List.ne_nil_of_mem g.start_declared
  have hproductions := g.productionsReport.rows_latex
  have hsets := SetsReport.rows_latex (r := T.analysis.setsReport)
    (by simpa [Analysis.setsReport] using hne)
  have htable := TableReport.rows_latex (r := T.report) (by simpa [rows_report] using hne)
  have hrun := (T.validationReport line withSteps).rows_latex
  refine ⟨?_, ?_, ?_, ?_, ?_⟩
  · rw [hproductions.separators_eq]
    simp [Grammar.productionsReport]
  · rw [hsets.separators_eq]
    simp [Analysis.setsReport]
  · have hcolumns : T.report.columns.length = T.columns.length := List.length_map _
    rw [htable.separators_eq, rows_report, hcolumns]
    simp
  · -- A trace is never empty, so that there is a row for a step whenever steps are asked for.
    obtain ⟨later, hsteps⟩ :=
      List.head?_eq_some_iff.mp (T.head?_steps (initial g (words line.toList)))
    rw [hrun.separators_eq]
    cases withSteps with
    | false => rfl
    | true => simp [validationReport, Trace.report, trace, hsteps]
  · simp only [List.forall_mem_cons]
    exact ⟨hproductions.sound, hsets.sound, htable.sound, hrun.sound, List.forall_mem_nil _⟩

end Predictive
