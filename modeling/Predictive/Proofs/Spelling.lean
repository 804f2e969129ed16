import Mathlib.Data.List.Infix
import Predictive.Text.Words

namespace Predictive

/-- Blanks and nothing else. -/
def Blank (cs : List Char) : Prop := ∀ c ∈ cs, isBlank c

/-- Characters of which none is blank. -/
def IsWord (w : String) : Prop := w ≠ "" ∧ ∀ c ∈ w.toList, ¬ isBlank c

/-- The characters write the words: blanks may stand around them, and do between two of them. -/
inductive Spells : List Char → List String → Prop
  | nil {gap} : Blank gap → Spells gap []
  | cons {gap w rest ws} : Blank gap → IsWord w → (∀ c ∈ rest.head?, isBlank c) → Spells rest ws →
      Spells (gap ++ (w.toList ++ rest)) (w :: ws)

variable {cs gap l m : List Char} {c : Char} {w : String} {ws vs : List String}

theorem blank_nil : Blank [] := nofun

theorem blank_cons : Blank (c :: cs) ↔ isBlank c ∧ Blank cs := List.forall_mem_cons

theorem blank_append : Blank (l ++ m) ↔ Blank l ∧ Blank m := List.forall_mem_append

theorem all_isBlank_iff : cs.all isBlank ↔ Blank cs := List.all_eq_true

theorem words_append_cons (hc : isBlank c) (l m : List Char) :
    words (l ++ c :: m) = words l ++ words m := by
  rw [words, List.splitOnP_append_cons l m hc, List.filter_append, List.map_append]
  rfl

theorem words_cons (hc : isBlank c) (m : List Char) : words (c :: m) = words m :=
  words_append_cons hc [] m

theorem words_gap_append (h : Blank gap) (m : List Char) : words (gap ++ m) = words m := by
  induction gap with
  | nil => rfl
  | cons c gap ih =>
    have ⟨hc, hgap⟩ := blank_cons.mp h
    rw [List.cons_append, words_cons hc, ih hgap]

theorem words_of_blank (h : Blank gap) : words gap = [] := by
  have hg := words_gap_append h []
  rwa [List.append_nil] at hg

theorem words_append_gap (h : Blank gap) (l : List Char) : words (l ++ gap) = words l := by
  cases gap with
  | nil => rw [List.append_nil]
  | cons c gap =>
    have ⟨hc, hgap⟩ := blank_cons.mp h
    rw [words_append_cons hc, words_of_blank hgap, List.append_nil]

theorem words_toList (h : IsWord w) : words w.toList = [w] := by
  have hp : ∀ c ∈ w.toList, isBlank c = false := fun c hc => by simpa using h.2 c hc
  rw [words, List.splitOnP_eq_singleton hp]
  simp [h.1]

theorem words_of_spells (h : Spells cs ws) : words cs = ws := by
  induction h with
  | nil hgap => exact words_of_blank hgap
  | @cons gap w rest ws hgap hw hrest _ ih =>
    rw [words_gap_append hgap]
    cases rest with
    | nil =>
      obtain rfl : [] = ws := ih
      rw [List.append_nil, words_toList hw]
    | cons c rest =>
      have hc : isBlank c := hrest c rfl
      rw [words_cons hc] at ih
      rw [words_append_cons hc, words_toList hw, ih, List.singleton_append]

theorem Spells.gap_append (h : Spells cs ws) (hgap : Blank gap) : Spells (gap ++ cs) ws := by
  cases h with
  | nil h => exact .nil (blank_append.mpr ⟨hgap, h⟩)
  | cons h hw hrest hs =>
    rw [← List.append_assoc]
    exact .cons (blank_append.mpr ⟨hgap, h⟩) hw hrest hs

theorem isWord_singleton (hc : ¬ isBlank c) : IsWord (.ofList [c]) := by
  simp [IsWord, hc]

theorem exists_spells (cs : List Char) : ∃ ws, Spells cs ws := by
  induction cs with
  | nil => exact ⟨[], .nil blank_nil⟩
  | cons c cs ih =>
    obtain ⟨ws, h⟩ := ih
    by_cases hc : isBlank c
    · have hgap : Blank [c] := blank_cons.mpr ⟨hc, blank_nil⟩
      exact ⟨ws, h.gap_append hgap⟩
    · have hword : IsWord (.ofList [c]) := isWord_singleton hc
      cases h with
      | nil hgap =>
        have hrest : ∀ d ∈ cs.head?, isBlank d := fun d hd => hgap d (List.mem_of_head? hd)
        exact ⟨[.ofList [c]], by simpa using Spells.cons blank_nil hword hrest (.nil hgap)⟩
      | @cons gap w rest ws hgap hw hrest hs =>
        -- A blank behind `c` ends its word; otherwise the next word goes on with it.
        cases gap with
        | nil =>
          have hcw : IsWord (.ofList (c :: w.toList)) := by
            simpa [IsWord, hc] using hw.2
          exact ⟨.ofList (c :: w.toList) :: ws, by simpa using Spells.cons blank_nil hcw hrest hs⟩
        | cons d gap =>
          have hd : ∀ x ∈ (d :: gap ++ (w.toList ++ rest)).head?, isBlank x := by
            simpa using (blank_cons.mp hgap).1
          exact ⟨.ofList [c] :: w :: ws,
            by simpa using Spells.cons blank_nil hword hd (.cons hgap hw hrest hs)⟩

/-- The words of a text are the ones it is a spelling of. -/
theorem words_eq_iff : words cs = ws ↔ Spells cs ws := by
  refine ⟨?_, words_of_spells⟩
  rintro rfl
  obtain ⟨ws, h⟩ := exists_spells cs
  rw [words_of_spells h]
  exact h

theorem spells_words (cs : List Char) : Spells cs (words cs) := words_eq_iff.mp rfl

theorem spells_nil_iff : Spells cs [] ↔ Blank cs := by
  constructor
  · rintro ⟨h⟩
    exact h
  · exact .nil

theorem Spells.append_gap (h : Spells cs ws) (hgap : Blank gap) : Spells (cs ++ gap) ws := by
  rw [← words_eq_iff, words_append_gap hgap]
  exact words_of_spells h

theorem Spells.append (hl : Spells l ws) (hc : isBlank c) (hm : Spells m vs) :
    Spells (l ++ c :: m) (ws ++ vs) := by
  rw [← words_eq_iff, words_append_cons hc, words_of_spells hl, words_of_spells hm]

theorem spells_toList (h : IsWord w) : Spells w.toList [w] := words_eq_iff.mp (words_toList h)

/-- Words with one blank after each but the last. -/
theorem spells_intercalate (h : ∀ w ∈ ws, IsWord w) : Spells (" ".intercalate ws).toList ws := by
  induction ws with
  | nil => exact .nil blank_nil
  | cons w ws ih =>
    have ⟨hw, hws⟩ := List.forall_mem_cons.mp h
    cases ws with
    | nil =>
      rw [String.intercalate_singleton]
      exact spells_toList hw
    | cons v ws =>
      rw [String.intercalate_cons_cons]
      simpa using (spells_toList hw).append (c := ' ') rfl (ih hws)

theorem Spells.isWord (h : Spells cs ws) : ∀ w ∈ ws, IsWord w := by
  induction h with
  | nil _ => exact nofun
  | cons _ hw _ _ ih => exact List.forall_mem_cons.mpr ⟨hw, ih⟩

theorem Spells.mem (h : Spells cs ws) (hc : c ∈ cs) : isBlank c ∨ ∃ w ∈ ws, c ∈ w.toList := by
  induction h with
  | nil hgap => exact .inl (hgap c hc)
  | @cons gap w rest ws hgap _ _ _ ih =>
    obtain hc | hc := List.mem_append.mp hc
    · exact .inl (hgap c hc)
    · obtain hc | hc := List.mem_append.mp hc
      · exact .inr ⟨w, List.mem_cons_self, hc⟩
      · obtain hb | ⟨v, hv, hcv⟩ := ih hc
        · exact .inl hb
        · exact .inr ⟨v, .tail _ hv, hcv⟩

theorem Spells.isInfix_toList (h : Spells cs ws) : ∀ w ∈ ws, w.toList <:+: cs := by
  induction h with
  | nil _ => exact nofun
  | @cons gap w rest ws _ _ _ _ ih =>
    refine List.forall_mem_cons.mpr ⟨⟨gap, rest, List.append_assoc ..⟩, fun v hv => ?_⟩
    have hrest : rest <:+: gap ++ (w.toList ++ rest) :=
      ((List.suffix_append _ _).trans (List.suffix_append _ _)).isInfix
    exact (ih v hv).trans hrest

variable {piece : List Char} {pieces : List (List Char)}

theorem isInfix_intercalate (sep : List Char) (h : piece ∈ pieces) :
    piece <:+: sep.intercalate pieces := by
  induction pieces with
  | nil => cases h
  | cons first pieces ih =>
    cases pieces with
    | nil =>
      obtain rfl := List.mem_singleton.mp h
      rw [List.intercalate_singleton]
    | cons second pieces =>
      rw [List.intercalate_cons_cons, List.append_assoc]
      obtain rfl | h := List.mem_cons.mp h
      · exact (List.prefix_append _ _).isInfix
      · have hs : sep.intercalate (second :: pieces) <:+:
            first ++ (sep ++ sep.intercalate (second :: pieces)) := ⟨first ++ sep, [], by simp⟩
        exact (ih h).trans hs

theorem isInfix_of_mem_splitOn (h : piece ∈ cs.splitOn c) : piece <:+: cs := by
  have hi := isInfix_intercalate [c] h
  rwa [List.intercalate_splitOn] at hi

theorem notMem_of_mem_splitOn (h : piece ∈ cs.splitOn c) : c ∉ piece := by
  induction cs generalizing piece with
  | nil =>
    obtain rfl := List.mem_singleton.mp h
    exact List.not_mem_nil
  | cons d cs ih =>
    rw [List.splitOn_cons_eq_if_modifyHead] at h
    split at h
    · obtain rfl | h := List.mem_cons.mp h
      · exact List.not_mem_nil
      · exact ih h
    · next hd =>
      obtain ⟨first, pieces, hp⟩ := List.exists_cons_of_ne_nil (List.splitOn_ne_nil c cs)
      rw [hp, List.modifyHead_cons] at h
      rw [hp] at ih
      obtain rfl | h := List.mem_cons.mp h
      · have hfirst : c ∉ first := ih List.mem_cons_self
        simpa [hfirst] using Ne.symm (by simpa using hd)
      · exact ih (.tail _ h)

/-- What stands between the sides of a rule. -/
def arrow : List Char := ['-', '>']

def Arrowless (cs : List Char) : Prop := ¬ arrow <:+: cs

theorem Arrowless.of_isInfix (h : Arrowless cs) (hl : l <:+: cs) : Arrowless l :=
  fun hi => h (hi.trans hl)

theorem arrowless_nil : Arrowless [] := by simp [Arrowless, arrow]

theorem pair_isInfix_cons {a b : Char} :
    [a, b] <:+: c :: cs ↔ (c = a ∧ cs.head? = some b) ∨ [a, b] <:+: cs := by
  have hp : [a, b] <+: c :: cs ↔ c = a ∧ cs.head? = some b := by
    cases cs <;> simp [eq_comm]
  rw [List.infix_cons_iff, hp]

/-- Where two texts meet, a pair of characters is made only from the last and the first one. -/
theorem pair_isInfix_append {a b : Char} : [a, b] <:+: l ++ m ↔
    [a, b] <:+: l ∨ [a, b] <:+: m ∨ l.getLast? = some a ∧ m.head? = some b := by
  induction l with
  | nil => simp
  | cons c l ih =>
    rw [List.cons_append, pair_isInfix_cons, pair_isInfix_cons, ih]
    cases l <;> simp <;> tauto

theorem arrowless_cons :
    Arrowless (c :: cs) ↔ ¬ (c = '-' ∧ cs.head? = some '>') ∧ Arrowless cs := by
  rw [Arrowless, arrow, pair_isInfix_cons, not_or, Arrowless, arrow]

theorem arrowless_append : Arrowless (l ++ m) ↔
    Arrowless l ∧ Arrowless m ∧ ¬ (l.getLast? = some '-' ∧ m.head? = some '>') := by
  simp only [Arrowless, arrow, pair_isInfix_append, not_or]

theorem arrowless_of_blank (h : Blank gap) : Arrowless gap := by
  intro hi
  have hb : isBlank '-' := h '-' (hi.mem (by simp [arrow]))
  cases hb

/-- Blanks keep the words apart, so that no arrow is made from two of them. -/
theorem arrowless_of_spells (h : Spells cs ws) (hws : ∀ w ∈ ws, Arrowless w.toList) :
    Arrowless cs := by
  induction h with
  | nil hgap => exact arrowless_of_blank hgap
  | @cons gap w rest ws hgap _ hrest _ ih =>
    have ⟨hw, hws⟩ := List.forall_mem_cons.mp hws
    have hjoin : ¬ (w.toList.getLast? = some '-' ∧ rest.head? = some '>') := by
      rintro ⟨-, hh⟩
      cases hrest '>' hh
    have hgapjoin : ¬ (gap.getLast? = some '-' ∧ (w.toList ++ rest).head? = some '>') := by
      rintro ⟨hl, -⟩
      cases hgap '-' (List.mem_of_getLast? hl)
    have hword : Arrowless (w.toList ++ rest) := arrowless_append.mpr ⟨hw, ih hws, hjoin⟩
    exact arrowless_append.mpr ⟨arrowless_of_blank hgap, hword, hgapjoin⟩

theorem splitArrows_cons (h : ¬ (c = '-' ∧ cs.head? = some '>')) :
    splitArrows (c :: cs) = (splitArrows cs).modifyHead (c :: ·) := by
  rw [splitArrows]
  rintro cs' rfl rfl
  exact h ⟨rfl, rfl⟩

theorem splitArrows_ne_nil (cs : List Char) : splitArrows cs ≠ [] := by
  fun_induction splitArrows cs with
  | case1 => simp
  | case2 => simp
  | case3 c cs _ ih => simpa using ih

theorem splitArrows_of_arrowless (h : Arrowless cs) : splitArrows cs = [cs] := by
  induction cs with
  | nil => rfl
  | cons c cs ih =>
    have ⟨hc, hcs⟩ := arrowless_cons.mp h
    rw [splitArrows_cons hc, ih hcs, List.modifyHead_cons]

theorem splitArrows_append (l m : List Char) :
    splitArrows (l ++ (arrow ++ m)) = splitArrows l ++ splitArrows m := by
  fun_induction splitArrows l with
  | case1 => rfl
  | case2 cs ih => simp [splitArrows, ih]
  | case3 c cs hcs ih =>
    have hc : ¬ (c = '-' ∧ (cs ++ (arrow ++ m)).head? = some '>') := by
      rintro ⟨rfl, hh⟩
      cases cs with
      | nil => simp [arrow] at hh
      | cons d cs =>
        obtain rfl : d = '>' := by simpa using hh
        exact hcs cs rfl rfl
    obtain ⟨piece, pieces, hp⟩ := List.exists_cons_of_ne_nil (splitArrows_ne_nil cs)
    rw [List.cons_append, splitArrows_cons hc, ih, hp]
    rfl

theorem intercalate_splitArrows (cs : List Char) : arrow.intercalate (splitArrows cs) = cs := by
  fun_induction splitArrows cs with
  | case1 => rfl
  | case2 cs ih => rw [List.intercalate_cons_of_ne_nil (splitArrows_ne_nil cs), ih]; rfl
  | case3 c cs _ ih =>
    obtain ⟨piece, pieces, hp⟩ := List.exists_cons_of_ne_nil (splitArrows_ne_nil cs)
    rw [hp] at ih ⊢
    rw [List.modifyHead_cons, List.intercalate_cons_cons_left, ih]

theorem arrowless_of_mem_splitArrows (h : piece ∈ splitArrows cs) :
    Arrowless piece := by
  induction cs using splitArrows.induct generalizing piece with
  | case1 =>
    obtain rfl : piece = [] := by simpa [splitArrows] using h
    exact arrowless_nil
  | case2 cs ih =>
    rw [splitArrows] at h
    obtain rfl | h := List.mem_cons.mp h
    · exact arrowless_nil
    · exact ih h
  | case3 c cs hcs ih =>
    have hc : ¬ (c = '-' ∧ cs.head? = some '>') := by
      rintro ⟨rfl, hh⟩
      obtain ⟨cs, rfl⟩ := List.head?_eq_some_iff.mp hh
      exact hcs cs rfl rfl
    have hi := intercalate_splitArrows cs
    rw [splitArrows_cons hc] at h
    obtain ⟨first, pieces, hp⟩ := List.exists_cons_of_ne_nil (splitArrows_ne_nil cs)
    rw [hp] at h hi ih
    obtain rfl | h := List.mem_cons.mp h
    · refine arrowless_cons.mpr ⟨?_, ih List.mem_cons_self⟩
      -- The first piece begins as the text does.
      rintro ⟨rfl, hh⟩
      obtain ⟨first, rfl⟩ := List.head?_eq_some_iff.mp hh
      rw [List.intercalate_cons_cons_left] at hi
      exact hc ⟨rfl, by rw [← hi]; rfl⟩
    · exact ih (.tail _ h)

end Predictive
