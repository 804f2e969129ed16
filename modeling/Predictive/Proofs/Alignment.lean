import Mathlib.Algebra.GroupWithZero.Nat
import Predictive.Proofs.RoundTrip

namespace Predictive

/-- What stands between two columns. -/
def columnGap : List Char := [' ', '|', ' ']

/-- The pieces of a line that is cut at columns of these widths, with a gap behind each column. -/
def cutAt : List Nat → List Char → List (List Char)
  | [], _ => []
  | width :: widths, cs => cs.take width :: cutAt widths (cs.drop (width + columnGap.length))

def withoutPadding (cs : List Char) : List Char := cs.dropWhile (· = ' ')

/-- Cut at columns of these widths the line falls apart into the cells, each of them filled up with
blanks in front; between any two columns stands the gap, and nothing else is on the line. -/
structure ShowsRow (widths : List Nat) (line : List Char) (cells : List String) : Prop where
  joined : columnGap.intercalate (cutAt widths line) = line
  filled : (cutAt widths line).map List.length = widths
  cells : (cutAt widths line).map withoutPadding = cells.map String.toList

/-- The lines are as long as each other and show the rows in the same columns. -/
def ShowsRows (lines : List (List Char)) (rows : List (List String)) : Prop :=
  (∃ widths, List.Forall₂ (ShowsRow widths) lines rows) ∧ ∃ length, ∀ l ∈ lines, l.length = length

/-- A text that can be read back from a column: it is on one line, and its own first character is
not a blank. -/
structure Tidy (s : String) : Prop where
  newline_notMem : '\n' ∉ s.toList
  head_ne : s.toList.head? ≠ some ' '

variable {s t : String} {ws row : List String} {rows : List (List String)} {widths : List Nat}
  {fields : List (List Char)} {width : Nat}

namespace Tidy

theorem of_isWord (h : IsWord s) : Tidy s := by
  refine ⟨newline_notMem_of_isWord h, ?_⟩
  intro hs
  exact h.2 ' ' (List.mem_of_head? hs) rfl

theorem append (h : Tidy s) (hs : s ≠ "") (ht : '\n' ∉ t.toList) : Tidy (s ++ t) := by
  have hne : s.toList ≠ [] := by simpa using hs
  refine ⟨?_, ?_⟩
  · rw [String.toList_append, List.mem_append, not_or]
    exact ⟨h.newline_notMem, ht⟩
  · rw [String.toList_append, List.head?_append_of_ne_nil _ hne]
    exact h.head_ne

theorem intercalate {sep : String} (hsep : '\n' ∉ sep.toList) (h : ∀ w ∈ ws, Tidy w ∧ w ≠ "") :
    Tidy (sep.intercalate ws) := by
  refine ⟨notMem_intercalate hsep fun w hw => (h w hw).1.newline_notMem, ?_⟩
  cases ws with
  | nil => simp
  | cons w ws =>
    obtain ⟨⟨hw, hne⟩, -⟩ := List.forall_mem_cons.mp h
    have hne' : w.toList ≠ [] := by simpa using hne
    cases ws with
    | nil =>
      rw [String.intercalate_singleton]
      exact hw.head_ne
    | cons v ws =>
      rw [String.intercalate_cons_cons, String.toList_append, String.toList_append,
        List.append_assoc, List.head?_append_of_ne_nil _ hne']
      exact hw.head_ne

end Tidy

theorem length_padLeft (h : s.length ≤ width) : (padLeft width s).toList.length = width := by
  rw [padLeft, blanks, String.toList_append, String.toList_ofList, List.length_append,
    List.length_replicate, String.length_toList]
  omega

theorem withoutPadding_padLeft (h : s.toList.head? ≠ some ' ') (width : Nat) :
    withoutPadding (padLeft width s).toList = s.toList := by
  have hblank : ∀ c ∈ List.replicate (width - s.length) ' ', decide (c = ' ') := by
    intro c hc
    rw [List.eq_of_mem_replicate hc]
    rfl
  rw [withoutPadding, padLeft, blanks, String.toList_append, String.toList_ofList,
    List.dropWhile_append_of_pos hblank]
  cases hs : s.toList with
  | nil => rfl
  | cons c cs =>
    rw [hs, List.head?_cons] at h
    have hc : ¬ c = ' ' := fun hc => h (congrArg some hc)
    exact List.dropWhile_cons_of_neg (by simpa using hc)

theorem cutAt_intercalate (h : fields.map List.length = widths) :
    cutAt widths (columnGap.intercalate fields) = fields := by
  subst h
  induction fields with
  | nil => rfl
  | cons field fields ih =>
    cases fields with
    | nil => simp [cutAt]
    | cons next fields =>
      -- The first cut gives the first field, and the gap is dropped with it.
      rw [List.intercalate_cons_cons, List.append_assoc, List.map_cons, cutAt, List.take_left]
      congr 1
      rw [← List.length_append, ← List.append_assoc, List.drop_left]
      exact ih

theorem length_intercalate (h : fields.map List.length = widths) :
    (columnGap.intercalate fields).length = widths.sum + 3 * (widths.length - 1) := by
  subst h
  induction fields with
  | nil => rfl
  | cons field fields ih =>
    cases fields with
    | nil => simp
    | cons next fields =>
      rw [List.intercalate_cons_cons, List.length_append, List.length_append, ih]
      simp only [columnGap, List.map_cons, List.sum_cons, List.length_cons, List.length_nil]
      omega

theorem ShowsRow.length_eq {line : List Char} (h : ShowsRow widths line row) :
    line.length = widths.sum + 3 * (widths.length - 1) := by
  rw [← length_intercalate h.filled, h.joined]

/-- Each column is as wide as the widest cell in it. -/
theorem fits_columnWidths (hrow : row ∈ rows) (hlen : ∀ r ∈ rows, r.length = row.length) :
    List.Forall₂ (fun width cell => cell.length ≤ width) (columnWidths rows) row := by
  -- The longest row decides how many columns there are, and no row is shorter than another.
  have hcolumns : (rows.map List.length).max?.getD 0 = row.length := by
    apply Nat.le_antisymm _ (List.le_max?_getD_of_mem (List.mem_map_of_mem hrow))
    cases hm : (rows.map List.length).max? with
    | none => exact Nat.zero_le _
    | some m =>
      obtain ⟨r, hr, rfl⟩ := List.mem_map.mp (List.max?_eq_some_iff.mp hm).1
      exact Nat.le_of_eq (hlen r hr)
  rw [List.forall₂_iff_get]
  refine ⟨by rw [columnWidths, List.length_map, List.length_range, hcolumns], ?_⟩
  intro j _ hj
  simp only [columnWidths, List.get_eq_getElem, List.getElem_map, List.getElem_range]
  apply List.le_max?_getD_of_mem
  rw [List.mem_filterMap]
  exact ⟨row, hrow, by simp [hj]⟩

theorem showsRow_padded (h : List.Forall₂ (fun width cell => cell.length ≤ width) widths row)
    (ht : ∀ cell ∈ row, Tidy cell) :
    ShowsRow widths (" | ".intercalate (widths.zipWith padLeft row)).toList row := by
  have hfields : ((widths.zipWith padLeft row).map String.toList).map List.length = widths ∧
      ((widths.zipWith padLeft row).map String.toList).map withoutPadding =
        row.map String.toList := by
    induction h with
    | nil => exact ⟨rfl, rfl⟩
    | @cons width cell widths row hw _ ih =>
      have ⟨hcell, hrow⟩ := List.forall_mem_cons.mp ht
      obtain ⟨hlen, hpad⟩ := ih hrow
      simp only [List.zipWith_cons_cons, List.map_cons, hlen, hpad, length_padLeft hw,
        withoutPadding_padLeft hcell.head_ne, and_self]
  have hcut := cutAt_intercalate hfields.1
  rw [String.toList_intercalate, show " | ".toList = columnGap from rfl]
  refine ⟨?_, ?_, ?_⟩
  · rw [hcut]
  · rw [hcut]
    exact hfields.1
  · rw [hcut]
    exact hfields.2

theorem newline_notMem_padded (ht : ∀ cell ∈ row, Tidy cell) :
    '\n' ∉ (" | ".intercalate (widths.zipWith padLeft row)).toList := by
  apply notMem_intercalate (by decide)
  intro w hw
  rw [← List.map_uncurry_zip_eq_zipWith, List.mem_map] at hw
  obtain ⟨⟨width, cell⟩, hmem, rfl⟩ := hw
  exact newline_notMem_padLeft width (ht cell (List.of_mem_zip hmem).2).newline_notMem

/-- Rows of equally many cells can be read back from their aligned text. -/
theorem showsRows_aligned {n : Nat} (hne : rows ≠ []) (hlen : ∀ row ∈ rows, row.length = n)
    (ht : ∀ row ∈ rows, ∀ cell ∈ row, Tidy cell) :
    ShowsRows (lines (aligned rows).toList) rows := by
  have hlines : lines (aligned rows).toList = rows.map fun row =>
      (" | ".intercalate ((columnWidths rows).zipWith padLeft row)).toList := by
    rw [aligned, lines_textLines_of_notMem (by simpa using hne), List.map_map]
    · rfl
    · exact List.forall_mem_map.mpr fun row hrow => newline_notMem_padded (ht row hrow)
  have hshows : ∀ row ∈ rows, ShowsRow (columnWidths rows)
      (" | ".intercalate ((columnWidths rows).zipWith padLeft row)).toList row := by
    intro row hrow
    have hsame : ∀ r ∈ rows, r.length = row.length :=
      fun r hr => (hlen r hr).trans (hlen row hrow).symm
    exact showsRow_padded (fits_columnWidths hrow hsame) (ht row hrow)
  rw [hlines]
  refine ⟨⟨columnWidths rows, ?_⟩,
    (columnWidths rows).sum + 3 * ((columnWidths rows).length - 1), ?_⟩
  · rw [List.forall₂_map_left_iff, List.forall₂_same]
    exact hshows
  · exact List.forall_mem_map.mpr fun row hrow => (hshows row hrow).length_eq

end Predictive
