import Predictive.Proofs.Reading

namespace Predictive

variable {l body : List Char} {ls before after : List (List Char)} {left : String}
  {fault : LineFault} {previous : Option String} {r : Rule} {rs rules : List Rule} {number : Nat}
  {e : GrammarError}

/-- One of the lines is a rule. -/
def HasRule (ls : List (List Char)) : Prop := ∃ l ∈ ls, ∃ left body, Line.IsRule l left body

namespace Line

/-- The line is in order where it stands. -/
def Fits (before : List (List Char)) (l : List Char) : Prop :=
  Blank l ∨ (∃ left body, IsRule l left body) ∨ HasRule before ∧ ∃ body, IsContinuation l body

/-- The line is faulty by itself, or continues nothing. -/
inductive FaultyBelow (before : List (List Char)) (l : List Char) : LineFault → Prop
  | line {fault : LineFault} : Faulty l fault → FaultyBelow before l fault
  | orphan : (∃ body, IsContinuation l body) → ¬ HasRule before →
      FaultyBelow before l .missingLeftSide

theorem not_isRule_of_blank (h : Blank l) : ¬ IsRule l left body := by
  intro hr
  have he := (read_of_blank h).symm.trans (read_of_isRule hr)
  cases he

theorem not_isRule_of_isContinuation {body' : List Char} (h : IsContinuation l body') :
    ¬ IsRule l left body := by
  intro hr
  have he := (read_of_isContinuation h).symm.trans (read_of_isRule hr)
  cases he

end Line

open Line

/-- Every line is in order where it stands. -/
def Shaped (ls : List (List Char)) : Prop :=
  ∀ before l after, ls = before ++ l :: after → Fits before l

/-- The first line that is not in order, with its number and its fault. -/
def FirstFaulty (ls : List (List Char)) (number : Nat) (fault : LineFault) : Prop :=
  ∃ before l after, ls = before ++ l :: after ∧ Shaped before ∧ FaultyBelow before l fault ∧
    number = before.length + 1

theorem hasRule_cons :
    HasRule (l :: ls) ↔ (∃ left body, IsRule l left body) ∨ HasRule ls := by
  simp [HasRule]

namespace Rule

/-- The left side that a continuation below the rules belongs to. -/
def lastLeft (previous : Option String) (rules : List Rule) : Option String :=
  rules.foldl (fun _ r => some r.left) previous

theorem lastLeft_append (rs rules : List Rule) :
    lastLeft previous (rs ++ rules) = lastLeft (lastLeft previous rs) rules :=
  List.foldl_append

theorem exists_mem_of_lastLeft (h : lastLeft previous rules = some left) :
    previous = some left ∨ ∃ r ∈ rules, r.left = left := by
  induction rules generalizing previous with
  | nil => exact .inl h
  | cons r rules ih =>
    obtain hr | ⟨r', hr', hl⟩ := ih h
    · exact .inr ⟨r, List.mem_cons_self, Option.some.inj hr⟩
    · exact .inr ⟨r', .tail _ hr', hl⟩

/-- What one line adds to the rules. -/
inductive Gives : (previous : Option String) → List Char → List Rule → Prop
  | blank {previous : Option String} {l : List Char} : Blank l → Gives previous l []
  | rule {previous : Option String} {l body : List Char} {left : String} : IsRule l left body →
      Gives previous l [⟨left, readAlternatives body⟩]
  | continuation {l body : List Char} {left : String} : IsContinuation l body →
      Gives (some left) l [⟨left, readAlternatives body⟩]

/-- Why a line adds nothing. -/
inductive Stuck : (previous : Option String) → List Char → LineFault → Prop
  | line {previous : Option String} {l : List Char} {fault : LineFault} : Faulty l fault →
      Stuck previous l fault
  | orphan {l body : List Char} : IsContinuation l body → Stuck none l .missingLeftSide

theorem gives_or_stuck (previous : Option String) (l : List Char) :
    (∃ rs, Gives previous l rs) ∨ ∃ fault, Stuck previous l fault := by
  obtain hl | ⟨left, body, hl⟩ | ⟨body, hl⟩ | ⟨fault, hl⟩ := shape_cases l
  · exact .inl ⟨_, .blank hl⟩
  · exact .inl ⟨_, .rule hl⟩
  · cases previous with
    | none => exact .inr ⟨_, .orphan hl⟩
    | some left => exact .inl ⟨_, .continuation hl⟩
  · exact .inr ⟨_, .line hl⟩

theorem ofLines_of_gives (h : Gives previous l rs) : ofLines previous number (l :: ls) =
    (ofLines (lastLeft previous rs) (number + 1) ls).map (rs ++ ·) := by
  cases h with
  | blank hl =>
    rw [ofLines_blank hl]
    cases h : ofLines previous (number + 1) ls <;> simp [lastLeft, h, Except.map]
  | rule hl => exact ofLines_rule hl
  | continuation hl => exact ofLines_continuation hl

theorem ofLines_of_stuck (h : Stuck previous l fault) :
    ofLines previous number (l :: ls) = .error (.line number fault) := by
  cases h with
  | line hl => exact ofLines_faulty hl
  | orphan hl => exact ofLines_orphan hl

theorem Gives.not_stuck (h : Gives previous l rs) : ¬ Stuck previous l fault := by
  intro hs
  have hok : ofLines previous 0 [l] = _ := ofLines_of_gives h
  have herror : ofLines previous 0 [l] = _ := ofLines_of_stuck hs
  cases hok.symm.trans herror

theorem reads_cons_iff : Reads previous (l :: ls) rules ↔
    ∃ rs rest, Gives previous l rs ∧ Reads (lastLeft previous rs) ls rest ∧ rules = rs ++ rest := by
  constructor
  · intro h
    cases h with
    | blank hl h => exact ⟨[], _, .blank hl, h, rfl⟩
    | rule hl h => exact ⟨[_], _, .rule hl, h, rfl⟩
    | continuation hl h => exact ⟨[_], _, .continuation hl, h, rfl⟩
  · rintro ⟨rs, rest, hg, h, rfl⟩
    cases hg with
    | blank hl => exact .blank hl h
    | rule hl => exact .rule hl h
    | continuation hl => exact .continuation hl h

theorem reads_append_iff : Reads previous (before ++ after) rules ↔
    ∃ rs rest, Reads previous before rs ∧ Reads (lastLeft previous rs) after rest ∧
      rules = rs ++ rest := by
  induction before generalizing previous rules with
  | nil =>
    constructor
    · exact fun h => ⟨[], rules, .nil, h, rfl⟩
    · rintro ⟨rs, rest, hrs, h, rfl⟩
      cases hrs
      exact h
  | cons l before ih =>
    simp only [List.cons_append, reads_cons_iff, ih]
    constructor
    · rintro ⟨rs, _, hg, ⟨rs', rest, hb, ha, rfl⟩, rfl⟩
      refine ⟨_, rest, ⟨rs, rs', hg, hb, rfl⟩, ?_, (List.append_assoc ..).symm⟩
      rwa [lastLeft_append]
    · rintro ⟨_, rest, ⟨rs, rs', hg, hb, rfl⟩, ha, rfl⟩
      rw [lastLeft_append] at ha
      exact ⟨rs, _, hg, ⟨rs', rest, hb, ha, rfl⟩, List.append_assoc ..⟩

/-- Lines that can be read are read before what follows them. -/
theorem Reads.ofLines_append (h : Reads previous before rs) :
    ofLines previous number (before ++ ls) =
      (ofLines (lastLeft previous rs) (number + before.length) ls).map (rs ++ ·) := by
  induction before generalizing previous rs number with
  | nil =>
    cases h
    cases h : ofLines previous number ls <;> simp [lastLeft, h, Except.map]
  | cons l before ih =>
    obtain ⟨rs, rest, hg, hr, rfl⟩ := reads_cons_iff.mp h
    have hn : number + (l :: before).length = number + 1 + before.length := by
      rw [List.length_cons]
      omega
    rw [List.cons_append, ofLines_of_gives hg, ih hr, lastLeft_append, hn]
    cases ofLines (lastLeft (lastLeft previous rs) rest) (number + 1 + before.length) ls <;>
      simp [Except.map]

/-- Lines can be read, or there is a first one where reading ends. -/
theorem reads_or_stuck (previous : Option String) (ls : List (List Char)) :
    (∃ rules, Reads previous ls rules) ∨ ∃ before l after rs fault, ls = before ++ l :: after ∧
      Reads previous before rs ∧ Stuck (lastLeft previous rs) l fault := by
  induction ls generalizing previous with
  | nil => exact .inl ⟨[], .nil⟩
  | cons l ls ih =>
    obtain ⟨rs, hg⟩ | ⟨fault, hs⟩ := gives_or_stuck previous l
    · obtain ⟨rest, h⟩ | ⟨before, m, after, rest, fault, rfl, h, hs⟩ := ih (lastLeft previous rs)
      · exact .inl ⟨_, reads_cons_iff.mpr ⟨rs, rest, hg, h, rfl⟩⟩
      · refine .inr ⟨l :: before, m, after, rs ++ rest, fault, rfl, ?_, ?_⟩
        · exact reads_cons_iff.mpr ⟨rs, rest, hg, h, rfl⟩
        · rwa [lastLeft_append]
    · exact .inr ⟨[], l, ls, [], fault, rfl, .nil, hs⟩

theorem Reads.lastLeft_eq_none_iff (h : Reads previous ls rules) :
    lastLeft previous rules = none ↔ previous = none ∧ ¬ HasRule ls := by
  induction h with
  | nil => simp [lastLeft, HasRule]
  | blank hl _ ih => simp [ih, hasRule_cons, not_isRule_of_blank hl]
  | @rule previous l body ls left rules hl _ ih =>
    have hr : HasRule (l :: ls) := hasRule_cons.mpr (.inl ⟨left, body, hl⟩)
    rw [lastLeft, List.foldl_cons, ← lastLeft, ih]
    simp [hr]
  | continuation _ _ ih =>
    rw [lastLeft, List.foldl_cons, ← lastLeft, ih]
    simp

theorem Reads.hasRule_iff (h : Reads none before rules) :
    HasRule before ↔ ∃ left, lastLeft none rules = some left := by
  rw [← Option.ne_none_iff_exists', ne_eq, h.lastLeft_eq_none_iff, eq_self, true_and, not_not]

theorem Reads.gives_iff (h : Reads none before rules) :
    (∃ rs, Gives (lastLeft none rules) l rs) ↔ Fits before l := by
  rw [Fits, h.hasRule_iff]
  constructor
  · rintro ⟨rs, hg⟩
    generalize lastLeft none rules = previous at hg
    cases hg with
    | blank hl => exact .inl hl
    | rule hl => exact .inr (.inl ⟨_, _, hl⟩)
    | continuation hl => exact .inr (.inr ⟨⟨_, rfl⟩, _, hl⟩)
  · rintro (hl | ⟨left, body, hl⟩ | ⟨⟨left, hleft⟩, body, hl⟩)
    · exact ⟨_, .blank hl⟩
    · exact ⟨_, .rule hl⟩
    · rw [hleft]
      exact ⟨_, .continuation hl⟩

theorem Reads.stuck_iff (h : Reads none before rules) :
    Stuck (lastLeft none rules) l fault ↔ FaultyBelow before l fault := by
  have hnone : lastLeft none rules = none ↔ ¬ HasRule before := by simp [h.lastLeft_eq_none_iff]
  constructor
  · intro hs
    generalize lastLeft none rules = previous at hs hnone
    cases hs with
    | line hl => exact .line hl
    | orphan hl => exact .orphan ⟨_, hl⟩ (hnone.mp rfl)
  · rintro (hl | ⟨⟨body, hl⟩, hr⟩)
    · exact .line hl
    · rw [hnone.mpr hr]
      exact .orphan hl

/-- Lines in order are those that can be read. -/
theorem shaped_iff : Shaped ls ↔ ∃ rules, Reads none ls rules := by
  constructor
  · intro h
    obtain hr | ⟨before, l, after, rs, fault, he, hb, hs⟩ := reads_or_stuck none ls
    · exact hr
    · obtain ⟨rs', hg⟩ := hb.gives_iff.mpr (h before l after he)
      exact absurd hs hg.not_stuck
  · rintro ⟨rules, h⟩ before l after rfl
    obtain ⟨rs, rest, hb, ha, rfl⟩ := reads_append_iff.mp h
    obtain ⟨rs', rest, hg, -, rfl⟩ := reads_cons_iff.mp ha
    exact hb.gives_iff.mp ⟨rs', hg⟩

/-- The first line that is not in order is reported. -/
theorem ofText_eq_error_iff {text : String} : ofText text = .error e ↔
    ∃ number fault, FirstFaulty (lines text.toList) number fault ∧ e = .line number fault := by
  have hstuck : ∀ {before l after rs fault}, lines text.toList = before ++ l :: after →
      Reads none before rs → Stuck (lastLeft none rs) l fault →
      ofText text = .error (.line (before.length + 1) fault) := by
    intro before l after rs fault he hb hs
    rw [ofText, he, hb.ofLines_append, ofLines_of_stuck hs, Nat.add_comm]
    rfl
  constructor
  · intro h
    obtain ⟨rules, hr⟩ | ⟨before, l, after, rs, fault, he, hb, hs⟩ :=
      reads_or_stuck none (lines text.toList)
    · rw [ofText_eq_ok_iff.mpr hr] at h
      cases h
    · have he' := h.symm.trans (hstuck he hb hs)
      have hf : FirstFaulty (lines text.toList) (before.length + 1) fault :=
        ⟨before, l, after, he, shaped_iff.mpr ⟨rs, hb⟩, hb.stuck_iff.mp hs, rfl⟩
      exact ⟨_, fault, hf, Except.error.inj he'⟩
  · rintro ⟨_, fault, ⟨before, l, after, he, hb, hf, rfl⟩, rfl⟩
    obtain ⟨rs, hb⟩ := shaped_iff.mp hb
    exact hstuck he hb (hb.stuck_iff.mpr hf)

theorem Gives.eq_nil_or_singleton (h : Gives previous l rs) : rs = [] ∨ ∃ r, rs = [r] := by
  cases h with
  | blank _ => exact .inl rfl
  | rule _ => exact .inr ⟨_, rfl⟩
  | continuation _ => exact .inr ⟨_, rfl⟩

/-- Each rule comes from a line of its own. -/
theorem Reads.split (h : Reads previous ls (rs ++ r :: rules)) : ∃ before l after,
    ls = before ++ l :: after ∧ Reads previous before rs ∧ Gives (lastLeft previous rs) l [r] := by
  induction ls generalizing previous rs with
  | nil =>
    generalize he : rs ++ r :: rules = all at h
    cases h
    simp at he
  | cons l ls ih =>
    obtain ⟨given, rest, hg, hr, he⟩ := reads_cons_iff.mp h
    obtain rfl | ⟨r', rfl⟩ := hg.eq_nil_or_singleton
    · obtain rfl : rs ++ r :: rules = rest := he
      obtain ⟨before, m, after, rfl, hb, hm⟩ := ih hr
      exact ⟨l :: before, m, after, rfl, reads_cons_iff.mpr ⟨[], rs, hg, hb, rfl⟩, hm⟩
    · cases rs with
      | nil =>
        obtain ⟨rfl, -⟩ := List.cons.inj he
        exact ⟨[], l, ls, rfl, .nil, hg⟩
      | cons _ rs =>
        obtain ⟨rfl, rfl⟩ := List.cons.inj he
        obtain ⟨before, m, after, rfl, hb, hm⟩ := ih hr
        exact ⟨l :: before, m, after, rfl, reads_cons_iff.mpr ⟨[_], rs, hg, hb, rfl⟩, hm⟩

end Rule

end Predictive
