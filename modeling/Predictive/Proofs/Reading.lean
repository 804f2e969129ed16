import Mathlib.Data.List.Forall2
import Predictive.Grammar.Text
import Predictive.Proofs.Spelling

namespace Predictive

variable {cs l body : List Char} {left : String} {alternatives : List (List String)}

theorem Rule.readLeft_eq_ok_iff : readLeft cs = .ok left ↔ Spells cs [left] := by
  rw [← words_eq_iff, readLeft]
  split <;> simp_all

namespace Line

/-- One arrow, with one word before it and the alternatives behind it. -/
def IsRule (l : List Char) (left : String) (body : List Char) : Prop :=
  ∃ before, l = before ++ (arrow ++ body) ∧ Arrowless before ∧ Arrowless body ∧
    Spells before [left]

/-- No arrow, and a bar in front, with alternatives behind it. -/
def IsContinuation (l body : List Char) : Prop :=
  Arrowless l ∧ ∃ gap, Blank gap ∧ l = gap ++ '|' :: body

/-- What is wrong with a line by itself. More than one arrow is a fault of its own, whatever stands
before the first. -/
inductive Faulty (l : List Char) : LineFault → Prop
  | tooManyArrows {first second third} : l = first ++ (arrow ++ (second ++ (arrow ++ third))) →
      Faulty l .tooManyArrows
  | emptyLeftSide {before body} : l = before ++ (arrow ++ body) → Arrowless before →
      Arrowless body → Blank before → Faulty l .emptyLeftSide
  | blankInLeftSide {before body ws} : l = before ++ (arrow ++ body) → Arrowless before →
      Arrowless body → Spells before ws → 1 < ws.length → Faulty l .blankInLeftSide
  | missingLeftSide : Arrowless l → ¬ Blank l → (∀ body, ¬ IsContinuation l body) →
      Faulty l .missingLeftSide

theorem read_of_blank (h : Blank l) : read l = .ok .blank := if_pos (all_isBlank_iff.mpr h)

theorem not_blank_of_mem {c : Char} (hc : c ∈ l) (h : ¬ isBlank c) : ¬ Blank l :=
  fun hl => h (hl c hc)

theorem read_of_arrow {before : List Char} (hb : Arrowless before) (hbody : Arrowless body) :
    read (before ++ (arrow ++ body)) =
      match Rule.readLeft before with
      | .error fault => .error fault
      | .ok name => .ok (.rule name (readAlternatives body)) := by
  have hn : ¬ Blank (before ++ (arrow ++ body)) :=
    not_blank_of_mem (c := '-') (by simp [arrow]) (by decide)
  rw [read, if_neg (all_isBlank_iff.not.mpr hn), splitArrows_append, splitArrows_of_arrowless hb,
    splitArrows_of_arrowless hbody]
  rfl

theorem read_of_isRule (h : IsRule l left body) :
    read l = .ok (.rule left (readAlternatives body)) := by
  obtain ⟨before, rfl, hb, hbody, hs⟩ := h
  rw [read_of_arrow hb hbody, Rule.readLeft_eq_ok_iff.mpr hs]

theorem read_of_isContinuation (h : IsContinuation l body) :
    read l = .ok (.continuation (readAlternatives body)) := by
  obtain ⟨ha, gap, hgap, rfl⟩ := h
  have hn : ¬ Blank (gap ++ '|' :: body) := not_blank_of_mem (c := '|') (by simp) (by decide)
  have hd : (gap ++ '|' :: body).dropWhile isBlank = '|' :: body := by
    rw [List.dropWhile_append_of_pos hgap, List.dropWhile_cons_of_neg (by decide)]
  rw [read, if_neg (all_isBlank_iff.not.mpr hn), splitArrows_of_arrowless ha, hd]
  rfl

theorem read_of_faulty {fault : LineFault} (h : Faulty l fault) : read l = .error fault := by
  cases h with
  | @tooManyArrows first second third hl =>
    have hn : ¬ Blank l := not_blank_of_mem (c := '-') (by simp [hl, arrow]) (by decide)
    have h1 := List.length_pos_of_ne_nil (splitArrows_ne_nil first)
    have h2 := List.length_pos_of_ne_nil (splitArrows_ne_nil second)
    have h3 := List.length_pos_of_ne_nil (splitArrows_ne_nil third)
    have hlen : 3 ≤ (splitArrows l).length := by
      rw [hl, splitArrows_append, splitArrows_append, List.length_append, List.length_append]
      omega
    rw [read, if_neg (all_isBlank_iff.not.mpr hn)]
    split
    · next hs => simp [hs] at hlen
    · next hs => simp [hs] at hlen
    · rfl
  | emptyLeftSide hl hb hbody hblank =>
    rw [hl, read_of_arrow hb hbody, Rule.readLeft, words_of_blank hblank]
  | @blankInLeftSide before body ws hl hb hbody hs hlen =>
    rw [hl, read_of_arrow hb hbody, Rule.readLeft, words_of_spells hs]
    obtain _ | ⟨_, _ | ⟨_, _⟩⟩ := ws
    · simp at hlen
    · simp at hlen
    · rfl
  | missingLeftSide ha hblank hc =>
    rw [read, if_neg (all_isBlank_iff.not.mpr hblank), splitArrows_of_arrowless ha]
    dsimp only
    split
    · next rest hd =>
      have hl : l = l.takeWhile isBlank ++ '|' :: rest := by
        rw [← hd, List.takeWhile_append_dropWhile]
      have hgap : Blank (l.takeWhile isBlank) := List.all_eq_true.mp List.all_takeWhile
      exact absurd ⟨ha, _, hgap, hl⟩ (hc rest)
    · rfl

/-- Every line is of one of four kinds. -/
theorem shape_cases (l : List Char) : Blank l ∨ (∃ left body, IsRule l left body) ∨
    (∃ body, IsContinuation l body) ∨ ∃ fault, Faulty l fault := by
  have hi := intercalate_splitArrows l
  have hall : ∀ piece ∈ splitArrows l, Arrowless piece := fun _ => arrowless_of_mem_splitArrows
  match hs : splitArrows l with
  | [] => exact absurd hs (splitArrows_ne_nil l)
  | [piece] =>
    rw [hs, List.intercalate_singleton] at hi
    subst hi
    have ha : Arrowless piece := hall piece (by simp [hs])
    by_cases hb : Blank piece
    · exact .inl hb
    · by_cases hc : ∃ body, IsContinuation piece body
      · exact .inr (.inr (.inl hc))
      · exact .inr (.inr (.inr ⟨_, .missingLeftSide ha hb (not_exists.mp hc)⟩))
  | [before, body] =>
    rw [hs, List.intercalate_cons_cons, List.intercalate_singleton, List.append_assoc] at hi
    have hb : Arrowless before := hall before (by simp [hs])
    have hbody : Arrowless body := hall body (by simp [hs])
    match hw : words before with
    | [] => exact .inr (.inr (.inr ⟨_, .emptyLeftSide hi.symm hb hbody
        (spells_nil_iff.mp (words_eq_iff.mp hw))⟩))
    | [left] => exact .inr (.inl ⟨left, body, before, hi.symm, hb, hbody, words_eq_iff.mp hw⟩)
    | _ :: _ :: _ => exact .inr (.inr (.inr ⟨_, .blankInLeftSide hi.symm hb hbody
        (words_eq_iff.mp hw) (by simp)⟩))
  | first :: second :: third :: pieces =>
    rw [hs, List.intercalate_cons_cons, List.intercalate_cons_cons, List.append_assoc,
      List.append_assoc] at hi
    exact .inr (.inr (.inr ⟨_, .tooManyArrows hi.symm⟩))

theorem eq_of_isRule {left' : String} {body' : List Char} (h : IsRule l left body)
    (h' : IsRule l left' body') : left = left' ∧ readAlternatives body = readAlternatives body' := by
  have he := (read_of_isRule h).symm.trans (read_of_isRule h')
  simpa using he

end Line

theorem map_eq_ok_iff {ε α β : Type} {f : α → β} {x : Except ε α} {b : β} :
    x.map f = .ok b ↔ ∃ a, x = .ok a ∧ f a = b := by
  cases x <;> simp [Except.map]

theorem bind_eq_ok_iff {ε α β : Type} {x : Except ε α} {f : α → Except ε β} {b : β} :
    x >>= f = .ok b ↔ ∃ a, x = .ok a ∧ f a = .ok b := by
  cases x <;> simp [bind, Except.bind]

theorem mapM_eq_ok_iff {ε α β : Type} {f : α → Except ε β} {as : List α} {bs : List β} :
    as.mapM f = .ok bs ↔ List.Forall₂ (fun a b => f a = .ok b) as bs := by
  induction as generalizing bs with
  | nil => simp [pure, Except.pure, eq_comm]
  | cons a as ih =>
    rw [List.mapM_cons, List.forall₂_cons_left_iff]
    cases ha : f a with
    | error e => simp [bind, Except.bind]
    | ok b =>
      cases has : as.mapM f with
      | error e => simp [bind, Except.bind, ← ih, has]
      | ok rest => simp [bind, Except.bind, pure, Except.pure, ← ih, has, eq_comm]

theorem exists_of_forall₂ {α β : Type} {R : α → β → Prop} {as : List α} {bs : List β} {b : β}
    (h : List.Forall₂ R as bs) (hb : b ∈ bs) : ∃ a ∈ as, R a b := by
  induction h with
  | nil => cases hb
  | @cons a _ as _ hab _ ih =>
    obtain rfl | hb := List.mem_cons.mp hb
    · exact ⟨a, List.mem_cons_self, hab⟩
    · obtain ⟨a', ha', hr⟩ := ih hb
      exact ⟨a', .tail _ ha', hr⟩

theorem forall₂_append_left {α β : Type} {R : α → β → Prop} {as as' : List α} {bs : List β}
    (h : List.Forall₂ R (as ++ as') bs) :
    ∃ cs ds, bs = cs ++ ds ∧ List.Forall₂ R as cs ∧ List.Forall₂ R as' ds := by
  induction as generalizing bs with
  | nil => exact ⟨[], bs, rfl, .nil, h⟩
  | cons a as ih =>
    cases h with
    | @cons _ b _ _ hab h =>
      obtain ⟨cs, ds, rfl, hcs, hds⟩ := ih h
      exact ⟨b :: cs, ds, rfl, .cons hab hcs, hds⟩

namespace Rule

/-- The lines hold the rules; a continuation in front belongs to the left side `previous`. -/
inductive Reads : (previous : Option String) → List (List Char) → List Rule → Prop
  | nil {previous : Option String} : Reads previous [] []
  | blank {previous : Option String} {l : List Char} {ls : List (List Char)} {rules : List Rule} :
      Blank l → Reads previous ls rules → Reads previous (l :: ls) rules
  | rule {previous : Option String} {l body : List Char} {ls : List (List Char)} {left : String}
      {rules : List Rule} : Line.IsRule l left body → Reads (some left) ls rules →
      Reads previous (l :: ls) (⟨left, Line.readAlternatives body⟩ :: rules)
  | continuation {l body : List Char} {ls : List (List Char)} {left : String} {rules : List Rule} :
      Line.IsContinuation l body → Reads (some left) ls rules →
      Reads (some left) (l :: ls) (⟨left, Line.readAlternatives body⟩ :: rules)

variable {ls : List (List Char)} {previous : Option String} {rules : List Rule} {number : Nat}

theorem ofLines_blank (h : Blank l) :
    ofLines previous number (l :: ls) = ofLines previous (number + 1) ls := by
  simp only [ofLines, Line.read_of_blank h]

theorem ofLines_rule (h : Line.IsRule l left body) : ofLines previous number (l :: ls) =
    (ofLines (some left) (number + 1) ls).map (⟨left, Line.readAlternatives body⟩ :: ·) := by
  simp only [ofLines, Line.read_of_isRule h]

theorem ofLines_continuation (h : Line.IsContinuation l body) :
    ofLines (some left) number (l :: ls) =
      (ofLines (some left) (number + 1) ls).map (⟨left, Line.readAlternatives body⟩ :: ·) := by
  simp only [ofLines, Line.read_of_isContinuation h]

theorem ofLines_orphan (h : Line.IsContinuation l body) :
    ofLines none number (l :: ls) = .error (.line number .missingLeftSide) := by
  simp only [ofLines, Line.read_of_isContinuation h]

theorem ofLines_faulty {fault : LineFault} (h : Line.Faulty l fault) :
    ofLines previous number (l :: ls) = .error (.line number fault) := by
  simp only [ofLines, Line.read_of_faulty h]

theorem ofLines_of_reads (h : Reads previous ls rules) : ofLines previous number ls = .ok rules := by
  induction h generalizing number with
  | nil => rfl
  | blank hl _ ih => rw [ofLines_blank hl, ih]
  | rule hl _ ih =>
    rw [ofLines_rule hl, ih]
    rfl
  | continuation hl _ ih =>
    rw [ofLines_continuation hl, ih]
    rfl

theorem reads_of_ofLines (h : ofLines previous number ls = .ok rules) : Reads previous ls rules := by
  induction ls generalizing previous number rules with
  | nil =>
    obtain rfl : [] = rules := Except.ok.inj h
    exact .nil
  | cons l ls ih =>
    obtain hl | ⟨left, body, hl⟩ | ⟨body, hl⟩ | ⟨fault, hl⟩ := Line.shape_cases l
    · rw [ofLines_blank hl] at h
      exact .blank hl (ih h)
    · rw [ofLines_rule hl] at h
      obtain ⟨rest, hrest, rfl⟩ := map_eq_ok_iff.mp h
      exact .rule hl (ih hrest)
    · cases previous with
      | none =>
        rw [ofLines_orphan hl] at h
        cases h
      | some left =>
        rw [ofLines_continuation hl] at h
        obtain ⟨rest, hrest, rfl⟩ := map_eq_ok_iff.mp h
        exact .continuation hl (ih hrest)
    · rw [ofLines_faulty hl] at h
      cases h

theorem ofLines_eq_ok_iff : ofLines previous number ls = .ok rules ↔ Reads previous ls rules :=
  ⟨reads_of_ofLines, ofLines_of_reads⟩

theorem ofText_eq_ok_iff {text : String} :
    ofText text = .ok rules ↔ Reads none (lines text.toList) rules :=
  ofLines_eq_ok_iff

theorem Reads.ofText_eq {text : String} (h : Reads none (lines text.toList) rules) :
    Grammar.ofText text = Grammar.ofRules rules := by
  rw [Grammar.ofText, ofText_eq_ok_iff.mpr h]
  rfl

/-- All names of the rule are words. -/
def Worded (r : Rule) : Prop :=
  IsWord r.left ∧ ∀ tokens ∈ r.alternatives, ∀ w ∈ tokens, IsWord w

/-- Neither an arrow nor a bar is in the tokens. -/
def PlainTokens (alternatives : List (List String)) : Prop :=
  ∀ tokens ∈ alternatives, ∀ w ∈ tokens, Arrowless w.toList ∧ '|' ∉ w.toList

/-- The rule can stand in a text; its left side may hold bars. -/
def Plain (r : Rule) : Prop := Arrowless r.left.toList ∧ PlainTokens r.alternatives

theorem isWord_of_mem_readAlternatives {tokens : List String} {w : String}
    (ht : tokens ∈ Line.readAlternatives body) (hw : w ∈ tokens) : IsWord w := by
  obtain ⟨piece, _, rfl⟩ := List.mem_map.mp ht
  exact (spells_words piece).isWord w hw

theorem plainTokens_readAlternatives (hb : Arrowless body) :
    PlainTokens (Line.readAlternatives body) := by
  intro tokens ht w hw
  obtain ⟨piece, hp, rfl⟩ := List.mem_map.mp ht
  have hi : w.toList <:+: piece := (spells_words piece).isInfix_toList w hw
  refine ⟨hb.of_isInfix (hi.trans (isInfix_of_mem_splitOn hp)), ?_⟩
  intro hbar
  exact notMem_of_mem_splitOn hp (hi.mem hbar)

theorem readAlternatives_ne_nil (body : List Char) : Line.readAlternatives body ≠ [] :=
  fun h => List.splitOn_ne_nil '|' body (List.map_eq_nil_iff.mp h)

/-- What is read from a text could have been written there. -/
theorem Reads.wellFormed (h : Reads previous ls rules)
    (hp : ∀ left ∈ previous, IsWord left ∧ Arrowless left.toList) :
    ∀ r ∈ rules, Worded r ∧ Plain r ∧ r.alternatives ≠ [] := by
  induction h with
  | nil => exact nofun
  | blank _ _ ih => exact ih hp
  | @rule _ l body _ left _ hl _ ih =>
    obtain ⟨before, _, hb, hbody, hs⟩ := hl
    have hleft : IsWord left ∧ Arrowless left.toList :=
      ⟨hs.isWord left List.mem_cons_self, hb.of_isInfix (hs.isInfix_toList left List.mem_cons_self)⟩
    have hworded : Worded ⟨left, Line.readAlternatives body⟩ :=
      ⟨hleft.1, fun _ ht _ => isWord_of_mem_readAlternatives ht⟩
    have hplain : Plain ⟨left, Line.readAlternatives body⟩ :=
      ⟨hleft.2, plainTokens_readAlternatives hbody⟩
    refine List.forall_mem_cons.mpr ⟨⟨hworded, hplain, readAlternatives_ne_nil body⟩, ih ?_⟩
    exact fun _ he => Option.some.inj he ▸ hleft
  | @continuation l body _ left _ hl _ ih =>
    obtain ⟨ha, gap, _, rfl⟩ := hl
    have hbody : Arrowless body := ha.of_isInfix ⟨gap ++ ['|'], [], by simp⟩
    have hleft := hp left rfl
    have hworded : Worded ⟨left, Line.readAlternatives body⟩ :=
      ⟨hleft.1, fun _ ht _ => isWord_of_mem_readAlternatives ht⟩
    have hplain : Plain ⟨left, Line.readAlternatives body⟩ :=
      ⟨hleft.2, plainTokens_readAlternatives hbody⟩
    exact List.forall_mem_cons.mpr ⟨⟨hworded, hplain, readAlternatives_ne_nil body⟩, ih hp⟩

/-- The two texts of a rule spell its left side and its alternatives. -/
def Denotes (texts : String × List String) (r : Rule) : Prop :=
  Spells texts.1.toList [r.left] ∧
    List.Forall₂ (fun a tokens => Spells a.toList tokens) texts.2 r.alternatives

theorem map_words_eq_iff {texts : List String} : (texts.map fun a => words a.toList) = alternatives ↔
    List.Forall₂ (fun a tokens => Spells a.toList tokens) texts alternatives := by
  rw [← List.forall₂_eq_eq_eq, List.forall₂_map_left_iff]
  simp only [words_eq_iff]

theorem ofTexts_eq_ok_iff {texts : List (String × List String)} :
    ofTexts texts = .ok rules ↔ List.Forall₂ Denotes texts rules := by
  have hread : ∀ (text : (String × List String) × Nat) (r : Rule),
      (match readLeft text.1.1.toList with
        | .error fault => .error (.line text.2 fault)
        | .ok name => .ok ⟨name, text.1.2.map fun a => words a.toList⟩) =
          (.ok r : Except GrammarError Rule) ↔ Denotes text.1 r := by
    intro ⟨⟨left, alternatives⟩, number⟩ ⟨name, tokens⟩
    rw [Denotes, ← readLeft_eq_ok_iff, ← map_words_eq_iff]
    cases readLeft left.toList <;> simp
  have hfst : (texts.zipIdx 1).map Prod.fst = texts := List.zipIdx_map_fst 1 texts
  rw [ofTexts, mapM_eq_ok_iff]
  conv_rhs => rw [← hfst, List.forall₂_map_left_iff]
  exact ⟨.imp fun text r => (hread text r).mp, .imp fun text r => (hread text r).mpr⟩

end Rule

end Predictive
