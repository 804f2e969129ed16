import Mathlib.Data.List.Basic
import Predictive.Proofs.TableReport
import Predictive.Report.Sets

namespace Predictive

variable {left right left' right' : String} {rights rights' ws vs : List String} {l m : List Char}
  {w v : String}

/-- A word that no arrow is in. -/
structure PlainWord (w : String) : Prop where
  isWord : IsWord w
  arrowless : Arrowless w.toList

theorem plainWord_singleton {c : Char} (hc : ¬ isBlank c) : PlainWord (.ofList [c]) :=
  ⟨isWord_singleton hc, by simp [arrowless_cons, arrowless_nil]⟩

theorem isWord_append (hw : IsWord w) (hv : v.toList.any isBlank = false) : IsWord (w ++ v) := by
  refine ⟨by simp [hw.1], ?_⟩
  rw [String.toList_append]
  exact List.forall_mem_append.mpr ⟨hw.2, List.any_eq_false.mp hv⟩

/-- The words of a list in which commas stand between the entries. -/
def beforeCommas : List String → List String
  | [] => []
  | [w] => [w]
  | w :: v :: ws => (w ++ ",") :: beforeCommas (v :: ws)

theorem spells_commas (h : ∀ w ∈ ws, IsWord w) :
    Spells (", ".intercalate ws).toList (beforeCommas ws) := by
  induction ws with
  | nil => exact .nil blank_nil
  | cons w ws ih =>
    have ⟨hw, hws⟩ := List.forall_mem_cons.mp h
    cases ws with
    | nil =>
      rw [String.intercalate_singleton]
      exact spells_toList hw
    | cons v ws =>
      have hcomma : IsWord (w ++ ",") := isWord_append hw rfl
      rw [String.intercalate_cons_cons, beforeCommas]
      simpa using (spells_toList hcomma).append (c := ' ') rfl (ih hws)

theorem length_beforeCommas (ws : List String) : (beforeCommas ws).length = ws.length := by
  fun_induction beforeCommas ws with
  | case1 | case2 => rfl
  | case3 w v ws ih => rw [List.length_cons, ih, List.length_cons (a := w)]

theorem beforeCommas_injective : Function.Injective beforeCommas := by
  intro ws vs h
  induction ws generalizing vs with
  | nil =>
    have hlen := congrArg List.length h
    rw [length_beforeCommas, length_beforeCommas] at hlen
    exact (List.eq_nil_of_length_eq_zero hlen.symm).symm
  | cons w ws ih =>
    have hlen := congrArg List.length h
    rw [length_beforeCommas, length_beforeCommas] at hlen
    -- The last entry alone has no comma, so that it matters on both sides which one that is.
    match ws, vs, hlen with
    | [], [v], _ => exact h
    | w' :: ws, v :: v' :: vs, _ =>
      obtain ⟨hw, hws⟩ := List.cons.inj h
      rw [(String.append_left_inj _).mp hw, ih hws]

/-- What commas join can be taken apart, for no entry has a blank in it. -/
theorem intercalate_comma_inj (hw : ∀ w ∈ ws, IsWord w) (hv : ∀ v ∈ vs, IsWord v)
    (h : ", ".intercalate ws = ", ".intercalate vs) : ws = vs := by
  apply beforeCommas_injective
  rw [← words_of_spells (spells_commas hw), h, words_of_spells (spells_commas hv)]

theorem intercalate_space_inj (hw : ∀ w ∈ ws, IsWord w) (hv : ∀ v ∈ vs, IsWord v)
    (h : " ".intercalate ws = " ".intercalate vs) : ws = vs := by
  rw [← words_of_spells (spells_intercalate hw), h, words_of_spells (spells_intercalate hv)]

/-- A blank shows where a word ends. -/
theorem word_append_inj (hw : IsWord w) (hv : IsWord v)
    (h : w.toList ++ ' ' :: l = v.toList ++ ' ' :: m) : w = v ∧ l = m := by
  have hblank : ∀ {w}, IsWord w → ' ' ∉ w.toList := fun hw hm => hw.2 ' ' hm rfl
  have hsplit := congrArg (List.splitOn ' ') h
  rw [List.splitOn_append_cons_self_of_not_mem (hblank hw),
    List.splitOn_append_cons_self_of_not_mem (hblank hv)] at hsplit
  obtain rfl : w = v := String.toList_inj.mp (List.cons.inj hsplit).1
  exact ⟨rfl, (List.cons.inj (List.append_cancel_left h)).2⟩

/-- What stands between the arrows of productions with this left side, the part in front of the
first one left out. -/
def betweenArrows (left right : String) : List String → List (List Char)
  | [] => [(" " ++ right).toList]
  | next :: rights => (" " ++ right ++ ", " ++ left ++ " ").toList :: betweenArrows left next rights

theorem betweenArrows_ne_nil (left right : String) (rights : List String) :
    betweenArrows left right rights ≠ [] := by
  cases rights <;> exact List.cons_ne_nil _ _

theorem betweenArrows_inj
    (h : betweenArrows left right rights = betweenArrows left right' rights') :
    right :: rights = right' :: rights' := by
  induction rights generalizing right right' rights' with
  | nil =>
    cases rights' with
    | nil => simpa [betweenArrows, String.toList_inj] using h
    | cons next rights' => exact absurd (List.cons.inj h).2.symm (betweenArrows_ne_nil _ _ _)
  | cons next rights ih =>
    cases rights' with
    | nil => exact absurd (List.cons.inj h).2 (betweenArrows_ne_nil _ _ _)
    | cons next' rights' =>
      obtain ⟨hright, hrights⟩ := List.cons.inj h
      rw [ih hrights]
      simpa [String.toList_inj] using hright

theorem splitArrows_productions {front : String} (hfront : Arrowless (front ++ left ++ " ").toList)
    (hright : ∀ r ∈ right :: rights, Arrowless r.toList) :
    splitArrows (front ++ ", ".intercalate ((right :: rights).map (left ++ " -> " ++ ·))).toList =
      (front ++ left ++ " ").toList :: betweenArrows left right rights := by
  have hleft : Arrowless left.toList := hfront.of_isInfix ⟨front.toList, [' '], by simp⟩
  induction rights generalizing front right with
  | nil =>
    have hr : Arrowless (" " ++ right).toList := by
      simpa [arrowless_cons] using hright
    have hs : (front ++ ", ".intercalate ([right].map (left ++ " -> " ++ ·))).toList =
        (front ++ left ++ " ").toList ++ (arrow ++ (" " ++ right).toList) := by
      simp [arrow]
    rw [hs, splitArrows_append, splitArrows_of_arrowless hfront, splitArrows_of_arrowless hr]
    rfl
  | cons next rights ih =>
    obtain ⟨hr, hrights⟩ := List.forall_mem_cons.mp hright
    have hnext : Arrowless (" " ++ right ++ ", " ++ left ++ " ").toList := by
      simp [arrowless_append, arrowless_cons, arrowless_nil, hr, hleft]
    -- Behind the first arrow the right side and the comma stand in front of the next production.
    have hs : (front ++
          ", ".intercalate ((right :: next :: rights).map (left ++ " -> " ++ ·))).toList =
        (front ++ left ++ " ").toList ++ (arrow ++ (" " ++ right ++ ", " ++
          ", ".intercalate ((next :: rights).map (left ++ " -> " ++ ·))).toList) := by
      simp [arrow]
    rw [hs, splitArrows_append, splitArrows_of_arrowless hfront, ih hnext hrights]
    rfl

theorem eq_of_lines {s t : String} (hs : lines s.toList = ws.map String.toList)
    (ht : lines t.toList = vs.map String.toList) (h : s = t) : ws = vs := by
  subst h
  exact List.map_injective_iff.mpr (fun _ _ => String.toList_inj.mp) (hs.symm.trans ht)

theorem map_eq_map_of_forall {α β γ δ : Type} {f : α → γ} {f' : β → γ} {k : α → δ} {k' : β → δ}
    {as : List α} {bs : List β} (hk : ∀ a ∈ as, ∀ b ∈ bs, f a = f' b → k a = k' b)
    (h : as.map f = bs.map f') : as.map k = bs.map k' := by
  induction as generalizing bs with
  | nil =>
    rw [List.map_eq_nil_iff.mp h.symm]
    rfl
  | cons a as ih =>
    obtain ⟨b, bs, rfl, hb, hbs⟩ := List.map_eq_cons_iff.mp h.symm
    rw [List.map_cons, List.map_cons, hk a List.mem_cons_self b List.mem_cons_self hb.symm,
      ih (fun a ha b hb => hk a (.tail _ ha) b (.tail _ hb)) hbs.symm]

namespace SetsRow

variable {r r' : SetsRow} {name name' : String}

/-- All names in the row are words. -/
structure Worded (r : SetsRow) : Prop where
  name : IsWord r.name
  first : ∀ w ∈ r.first, IsWord w
  follow : ∀ w ∈ r.follow, IsWord w

theorem setText_inj (hn : IsWord name) (hn' : IsWord name') (hw : ∀ w ∈ ws, IsWord w)
    (hv : ∀ v ∈ vs, IsWord v) (h : name ++ ") = " ++ setText ws = name' ++ ") = " ++ setText vs) :
    name = name' ∧ ws = vs := by
  have hlists : (name ++ ")").toList ++ ' ' :: ("= \x7b" ++ ", ".intercalate ws).toList ++
        ['\x7d'] =
      (name' ++ ")").toList ++ ' ' :: ("= \x7b" ++ ", ".intercalate vs).toList ++ ['\x7d'] := by
    simpa [setText] using congrArg String.toList h
  obtain ⟨hname, hset⟩ := word_append_inj (isWord_append hn rfl)
    (isWord_append hn' rfl) (List.append_cancel_right hlists)
  refine ⟨(String.append_left_inj _).mp hname, intercalate_comma_inj hw hv ?_⟩
  exact (String.append_right_inj _).mp (String.toList_inj.mp hset)

theorem eq_of_plainFirst (hr : r.Worded) (hr' : r'.Worded) (h : r.plainFirst = r'.plainFirst) :
    r.name = r'.name ∧ r.first = r'.first := by
  apply setText_inj hr.name hr'.name hr.first hr'.first
  simpa [plainFirst, String.append_assoc] using h

theorem eq_of_plainFollow (hr : r.Worded) (hr' : r'.Worded) (h : r.plainFollow = r'.plainFollow) :
    r.name = r'.name ∧ r.follow = r'.follow := by
  apply setText_inj hr.name hr'.name hr.follow hr'.follow
  simpa [plainFollow, String.append_assoc] using h

end SetsRow

namespace Cell

variable {c c' : Cell}

/-- What a report shows of a cell: the productions by the names of their symbols. -/
def shown (c : Cell) : String × Symbol × List (String × List String) :=
  (c.nonTerminal, c.lookahead,
    c.entries.map fun e => (e.production.left, e.production.right.map Symbol.name))

/-- A cell of plain words with productions of its own non-terminal. -/
structure Plain (c : Cell) : Prop where
  nonTerminal : PlainWord c.nonTerminal
  lookahead : PlainWord c.lookahead.name
  entries_ne_nil : c.entries ≠ []
  left : ∀ e ∈ c.entries, e.production.left = c.nonTerminal
  right : ∀ e ∈ c.entries, ∀ s ∈ e.production.right, PlainWord s.name

/-- What stands in front of the productions. -/
def front (c : Cell) : String := "(" ++ c.nonTerminal ++ ", " ++ c.lookahead.name ++ ") : "

namespace Plain

theorem front_inj (h : c.Plain) (h' : c'.Plain)
    (he : c.front ++ c.nonTerminal ++ " " = c'.front ++ c'.nonTerminal ++ " ") :
    c.nonTerminal = c'.nonTerminal ∧ c.lookahead.name = c'.lookahead.name := by
  have hlists := congrArg String.toList he
  simp only [front, String.append_assoc] at hlists
  obtain ⟨hname, hrest⟩ := word_append_inj (isWord_append (v := ",") h.nonTerminal.isWord rfl)
    (isWord_append (v := ",") h'.nonTerminal.isWord rfl) (by simpa using hlists)
  obtain ⟨hlookahead, -⟩ := word_append_inj (isWord_append (v := ")") h.lookahead.isWord rfl)
    (isWord_append (v := ")") h'.lookahead.isWord rfl) (by simpa using hrest)
  exact ⟨(String.append_left_inj _).mp hname, (String.append_left_inj _).mp hlookahead⟩

theorem arrowless_front (h : c.Plain) : Arrowless (c.front ++ c.nonTerminal ++ " ").toList := by
  simp [front, arrowless_append, arrowless_cons, arrowless_nil, h.nonTerminal.arrowless,
    h.lookahead.arrowless]

theorem texts_eq (h : c.Plain) : c.texts =
    (c.entries.map (·.production.rightText)).map (c.nonTerminal ++ " -> " ++ ·) := by
  rw [texts, List.map_map]
  apply List.map_congr_left
  intro e he
  rw [Production.text, h.left e he]
  rfl

theorem isWord_names (h : c.Plain) {e : Entry} (he : e ∈ c.entries) :
    ∀ w ∈ e.production.right.map Symbol.name, IsWord w :=
  List.forall_mem_map.mpr fun s hs => (h.right e he s hs).isWord

theorem arrowless_rightText (h : c.Plain) {e : Entry} (he : e ∈ c.entries) :
    Arrowless e.production.rightText.toList :=
  arrowless_of_spells (spells_intercalate (h.isWord_names he))
    (List.forall_mem_map.mpr fun s hs => (h.right e he s hs).arrowless)

theorem exists_splitArrows_line (h : c.Plain) : ∃ right rights,
    c.entries.map (·.production.rightText) = right :: rights ∧
      splitArrows c.line.toList =
        (c.front ++ c.nonTerminal ++ " ").toList :: betweenArrows c.nonTerminal right rights := by
  obtain ⟨right, rights, hr⟩ : ∃ right rights,
      c.entries.map (·.production.rightText) = right :: rights :=
    List.exists_cons_of_ne_nil (by simpa using h.entries_ne_nil)
  have harrowless : ∀ r ∈ right :: rights, Arrowless r.toList := by
    rw [← hr]
    exact List.forall_mem_map.mpr fun e he => h.arrowless_rightText he
  refine ⟨right, rights, hr, ?_⟩
  rw [← splitArrows_productions h.arrowless_front harrowless, ← hr, ← h.texts_eq]
  rfl

/-- The line of a cell is cut at its arrows: in front of the first the cell is named, and behind
them are the right sides. -/
theorem eq_of_line (h : c.Plain) (h' : c'.Plain) (he : c.line = c'.line) :
    c.nonTerminal = c'.nonTerminal ∧ c.lookahead.name = c'.lookahead.name ∧
      c.shown.2.2 = c'.shown.2.2 := by
  obtain ⟨right, rights, hr, hs⟩ := h.exists_splitArrows_line
  obtain ⟨right', rights', hr', hs'⟩ := h'.exists_splitArrows_line
  rw [he, hs'] at hs
  obtain ⟨hfront, hbetween⟩ := List.cons.inj hs
  obtain ⟨hname, hlookahead⟩ := front_inj h h' (String.toList_inj.mp hfront.symm)
  rw [hname] at hbetween
  have hrights := hr.trans ((betweenArrows_inj hbetween).symm.trans hr'.symm)
  refine ⟨hname, hlookahead, map_eq_map_of_forall ?_ hrights⟩
  intro e he e' he' htext
  rw [h.left e he, h'.left e' he', hname,
    intercalate_space_inj (h.isWord_names he) (h'.isWord_names he') htext]

end Plain

end Cell

end Predictive
