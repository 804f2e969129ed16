import Predictive.Proofs.Building
import Predictive.Proofs.Shape

namespace Predictive

variable {l body : List Char} {ls before after : List (List Char)} {left : String}
  {fault : LineFault} {previous : Option String} {r : Rule} {rs rules : List Rule} {number : Nat}
  {e : GrammarError}

/-- The last of the lines that is a rule has this left side. -/
def Under (ls : List (List Char)) (left : String) : Prop :=
  ∃ before l after, ls = before ++ l :: after ∧ (∃ body, Line.IsRule l left body) ∧ ¬ HasRule after

namespace Line

/-- The line holds the alternatives `body`. -/
def HasBody (l body : List Char) : Prop := (∃ left, IsRule l left body) ∨ IsContinuation l body

/-- A left side on the line is neither `ε` nor the end mark. -/
def LeftAllowed (l : List Char) : Prop :=
  ∀ left body, IsRule l left body → left ≠ Symbol.epsilonName ∧ left ≠ Symbol.endName

def BodyAllowed (l : List Char) : Prop :=
  ∀ body, HasBody l body → ∀ piece ∈ body.splitOn '|', Rule.Acceptable (words piece)

end Line

open Line

/-- The lines are in the language of grammar texts. -/
structure Accepts (ls : List (List Char)) : Prop where
  not_blank : ∃ l ∈ ls, ¬ Blank l
  shaped : Shaped ls
  lefts : ∀ l ∈ ls, LeftAllowed l
  bodies : ∀ l ∈ ls, BodyAllowed l

/-- The first left side that is reserved. -/
def FirstReserved (ls : List (List Char)) (left : String) : Prop :=
  ∃ before l after body, ls = before ++ l :: after ∧ (∀ m ∈ before, LeftAllowed m) ∧
    IsRule l left body ∧ (left = Symbol.epsilonName ∨ left = Symbol.endName)

/-- The reason to refuse the first alternative, in the order of the text, that has one. -/
def FirstRefused (ls : List (List Char)) (e : GrammarError) : Prop :=
  ∃ before l after body pieces piece more left, ls = before ++ l :: after ∧
    (∀ m ∈ before, BodyAllowed m) ∧ HasBody l body ∧ body.splitOn '|' = pieces ++ piece :: more ∧
    (∀ p ∈ pieces, Rule.Acceptable (words p)) ∧ Under (before ++ [l]) left ∧
    Rule.Refused left (words piece) e

/-- The fault of other lines. The shape of every line comes before the left sides, and these before
the alternatives. -/
inductive Refuses (ls : List (List Char)) : GrammarError → Prop
  | line {number : Nat} {fault : LineFault} : FirstFaulty ls number fault →
      Refuses ls (.line number fault)
  | left {left : String} : Shaped ls → FirstReserved ls left → Refuses ls (.reservedToken left left)
  | blank : (∀ l ∈ ls, Blank l) → Refuses ls .noStartSymbol
  | alternative {e : GrammarError} : Shaped ls → (∀ l ∈ ls, LeftAllowed l) → FirstRefused ls e →
      Refuses ls e

namespace Line

theorem not_hasBody_of_blank (h : Blank l) : ¬ HasBody l body := by
  rintro (⟨left, hr⟩ | hc)
  · exact not_isRule_of_blank h hr
  · have he := (read_of_blank h).symm.trans (read_of_isContinuation hc)
    cases he

end Line

theorem under_cons : Under (l :: ls) left ↔
    Under ls left ∨ ¬ HasRule ls ∧ ∃ body, IsRule l left body := by
  constructor
  · rintro ⟨before, m, after, he, hm, ha⟩
    cases before with
    | nil =>
      obtain ⟨rfl, rfl⟩ := List.cons.inj he
      exact .inr ⟨ha, hm⟩
    | cons _ before =>
      obtain ⟨rfl, rfl⟩ := List.cons.inj he
      exact .inl ⟨before, m, after, rfl, hm, ha⟩
  · rintro (⟨before, m, after, rfl, hm, ha⟩ | ⟨ha, hm⟩)
    · exact ⟨l :: before, m, after, rfl, hm, ha⟩
    · exact ⟨[], l, ls, rfl, hm, ha⟩

namespace Rule

theorem Reads.lastLeft_eq_some_iff (h : Reads previous ls rules) :
    lastLeft previous rules = some left ↔
      Under ls left ∨ ¬ HasRule ls ∧ previous = some left := by
  induction h with
  | nil => simp [lastLeft, Under, HasRule]
  | blank hl _ ih => simp [ih, under_cons, hasRule_cons, not_isRule_of_blank hl]
  | @rule previous l body ls left' rules hl _ ih =>
    have hiff : (∃ body, IsRule l left body) ↔ left' = left := by
      constructor
      · rintro ⟨_, hr⟩
        exact (eq_of_isRule hl hr).1
      · rintro rfl
        exact ⟨body, hl⟩
    have hr : HasRule (l :: ls) := hasRule_cons.mpr (.inl ⟨left', body, hl⟩)
    rw [under_cons, hiff, lastLeft, List.foldl_cons, ← lastLeft, ih]
    simp [hr]
  | continuation hl _ ih =>
    rw [lastLeft, List.foldl_cons, ← lastLeft, ih]
    simp [under_cons, hasRule_cons, not_isRule_of_isContinuation hl]

theorem not_isReserved_iff :
    ¬ isReserved left ↔ left ≠ Symbol.epsilonName ∧ left ≠ Symbol.endName := by
  simp [isReserved]

/-- A continuation has the left side of a rule above it. -/
theorem Reads.leftAllowed_iff_below (h : Reads previous ls rules)
    (hp : ∀ left ∈ previous, ¬ isReserved left) :
    (∀ l ∈ ls, LeftAllowed l) ↔ ∀ r ∈ rules, ¬ isReserved r.left := by
  induction h with
  | nil => simp
  | blank hl _ ih =>
    have ha : LeftAllowed _ := fun left body hr => absurd hr (not_isRule_of_blank hl)
    rw [List.forall_mem_cons, and_iff_right ha, ih hp]
  | @rule _ l body _ left _ hl _ ih =>
    have ha : LeftAllowed l ↔ ¬ isReserved left := by
      rw [not_isReserved_iff]
      exact ⟨fun ha => ha left body hl, fun hn left' body' hr => (eq_of_isRule hl hr).1 ▸ hn⟩
    rw [List.forall_mem_cons, List.forall_mem_cons, ha]
    exact and_congr_right fun hn => ih fun _ he => Option.some.inj he ▸ hn
  | continuation hl _ ih =>
    have ha : LeftAllowed _ := fun left body hr => absurd hr (not_isRule_of_isContinuation hl)
    rw [List.forall_mem_cons, List.forall_mem_cons, and_iff_right ha, and_iff_right (hp _ rfl), ih hp]

theorem Reads.leftAllowed_iff (h : Reads none ls rules) :
    (∀ l ∈ ls, LeftAllowed l) ↔ ∀ r ∈ rules, ¬ isReserved r.left :=
  h.leftAllowed_iff_below (by simp)

theorem Gives.eq_of_isRule (h : Gives previous l rs) (hl : IsRule l left body) :
    rs = [⟨left, readAlternatives body⟩] := by
  cases h with
  | blank hb => exact absurd hl (not_isRule_of_blank hb)
  | rule hl' =>
    obtain ⟨rfl, ha⟩ := Line.eq_of_isRule hl' hl
    rw [ha]
  | continuation hc => exact absurd hl (not_isRule_of_isContinuation hc)

theorem Gives.hasBody (h : Gives previous l [r]) :
    ∃ body, HasBody l body ∧ r.alternatives = readAlternatives body := by
  cases h with
  | rule hl => exact ⟨_, .inl ⟨_, hl⟩, rfl⟩
  | continuation hl => exact ⟨_, .inr hl, rfl⟩

theorem Gives.eq_of_hasBody (h : Gives previous l rs) (hb : HasBody l body) :
    ∃ left, rs = [⟨left, readAlternatives body⟩] := by
  obtain ⟨left, hl⟩ | hc := hb
  · exact ⟨left, h.eq_of_isRule hl⟩
  · cases h with
    | blank hl => exact absurd (.inr hc) (not_hasBody_of_blank hl)
    | rule hl => exact absurd hl (not_isRule_of_isContinuation hc)
    | continuation hc' =>
      have he := (read_of_isContinuation hc').symm.trans (read_of_isContinuation hc)
      obtain ha := Line.continuation.inj (Except.ok.inj he)
      exact ⟨_, by rw [ha]⟩

theorem Gives.bodyAllowed_iff (h : Gives previous l rs) :
    BodyAllowed l ↔ ∀ c ∈ clauses rs, Acceptable c.2 := by
  have hall : ∀ left body, (∀ c ∈ clauses [⟨left, readAlternatives body⟩], Acceptable c.2) ↔
      ∀ piece ∈ body.splitOn '|', Acceptable (words piece) := by
    simp [clauses, readAlternatives]
  constructor
  · rintro ha c hc
    obtain ⟨r, hr, -⟩ := List.mem_flatMap.mp hc
    cases h with
    | blank _ => cases hr
    | rule hl => exact (hall _ _).mpr (ha _ (.inl ⟨_, hl⟩)) c hc
    | continuation hl => exact (hall _ _).mpr (ha _ (.inr hl)) c hc
  · intro hc body hb
    obtain ⟨left, rfl⟩ := h.eq_of_hasBody hb
    exact (hall left body).mp hc

theorem Reads.bodyAllowed_iff (h : Reads previous ls rules) :
    (∀ l ∈ ls, BodyAllowed l) ↔ ∀ c ∈ clauses rules, Acceptable c.2 := by
  induction ls generalizing previous rules with
  | nil =>
    cases h
    simp [clauses]
  | cons l ls ih =>
    obtain ⟨rs, rest, hg, hr, rfl⟩ := reads_cons_iff.mp h
    have hc : clauses (rs ++ rest) = clauses rs ++ clauses rest := List.flatMap_append
    rw [List.forall_mem_cons, hg.bodyAllowed_iff, ih hr, hc, List.forall_mem_append]

theorem unreserved_declared_iff :
    (∀ name ∈ declared rules, ¬ isReserved name) ↔ ∀ r ∈ rules, ¬ isReserved r.left := by
  simp [declared]

/-- The first reserved left side is found. -/
theorem Reads.reservedLeft_iff (h : Reads none ls rules) :
    rules.findSome? reservedLeft? = some e ↔
      ∃ left, FirstReserved ls left ∧ e = .reservedToken left left := by
  have hres : ∀ left, isReserved left ↔ left = Symbol.epsilonName ∨ left = Symbol.endName := by
    simp [isReserved]
  rw [List.findSome?_eq_some_iff]
  constructor
  · rintro ⟨rs, r, rest, rfl, hr, hrs⟩
    have hrs : ∀ r ∈ rs, ¬ isReserved r.left := by simpa [reservedLeft?] using hrs
    obtain ⟨before, l, after, rfl, hb, hg⟩ := h.split
    obtain ⟨hleft, rfl⟩ : isReserved r.left ∧ .reservedToken r.left r.left = e := by
      simpa [reservedLeft?] using hr
    refine ⟨r.left, ?_, rfl⟩
    generalize hlast : lastLeft none rs = last at hg
    cases hg with
    | rule hl =>
      exact ⟨before, l, after, _, rfl, hb.leftAllowed_iff.mpr hrs, hl, (hres _).mp hleft⟩
    | continuation hl =>
      -- The rule that it continues has the same left side and was found before.
      obtain hn | ⟨r', hr', he⟩ := exists_mem_of_lastLeft hlast
      · cases hn
      · exact absurd (he ▸ hleft) (hrs r' hr')
  · rintro ⟨left, ⟨before, l, after, body, rfl, hb, hl, hr⟩, rfl⟩
    obtain ⟨rs, rest, hbefore, ha, rfl⟩ := reads_append_iff.mp h
    obtain ⟨rs', rest, hg, -, rfl⟩ := reads_cons_iff.mp ha
    obtain rfl := hg.eq_of_isRule hl
    have hrs := hbefore.leftAllowed_iff.mp hb
    refine ⟨rs, _, rest, rfl, ?_, ?_⟩
    · rw [reservedLeft?, if_pos ((hres left).mpr hr)]
    · simpa [reservedLeft?] using hrs

theorem findSome?_clauses (rules : List Rule) :
    (clauses rules).findSome? (fun (left, tokens) => fault? left tokens) =
      rules.findSome? fun r => r.alternatives.findSome? (fault? r.left) := by
  induction rules with
  | nil => rfl
  | cons r rules ih =>
    rw [clauses_cons, List.findSome?_append, List.findSome?_map, ih, List.findSome?_cons]
    change (List.findSome? (fault? r.left) r.alternatives).or _ = _
    cases r.alternatives.findSome? (fault? r.left) <;> rfl

theorem findSome?_fault?_eq_some_iff :
    (clauses rules).findSome? (fun (left, tokens) => fault? left tokens) = some e ↔
      ∃ rs r rest, rules = rs ++ r :: rest ∧ (∀ c ∈ clauses rs, Acceptable c.2) ∧
        ∃ fine tokens more, r.alternatives = fine ++ tokens :: more ∧
          (∀ tokens ∈ fine, Acceptable tokens) ∧ Refused r.left tokens e := by
  have hrs : ∀ rs : List Rule, (∀ r ∈ rs, r.alternatives.findSome? (fault? r.left) = none) ↔
      ∀ c ∈ clauses rs, Acceptable c.2 := by
    intro rs
    rw [← findSome?_fault?_eq_none_iff, findSome?_clauses, List.findSome?_eq_none_iff]
  simp only [findSome?_clauses, List.findSome?_eq_some_iff, hrs, fault?_eq_some_iff,
    fault?_eq_none_iff]
  constructor
  · rintro ⟨rs, r, rest, hr, ⟨fine, tokens, more, ht, hf, ha⟩, hb⟩
    exact ⟨rs, r, rest, hr, hb, fine, tokens, more, ht, ha, hf⟩
  · rintro ⟨rs, r, rest, hr, hb, fine, tokens, more, ht, ha, hf⟩
    exact ⟨rs, r, rest, hr, ⟨fine, tokens, more, ht, hf, ha⟩, hb⟩

theorem Gives.under (hb : Reads none before rs) (h : Gives (lastLeft none rs) l [r]) :
    Under (before ++ [l]) left ↔ r.left = left := by
  have hl : Reads (lastLeft none rs) [l] [r] := reads_cons_iff.mpr ⟨[r], [], h, .nil, rfl⟩
  have hr : Reads none (before ++ [l]) (rs ++ [r]) := reads_append_iff.mpr ⟨rs, [r], hb, hl, rfl⟩
  have hlast : lastLeft none (rs ++ [r]) = some left ↔ _ := hr.lastLeft_eq_some_iff
  rw [lastLeft_append] at hlast
  simpa [lastLeft, eq_comm] using hlast.symm

/-- The first alternative with a fault is found. -/
theorem Reads.fault_iff (h : Reads none ls rules) :
    (clauses rules).findSome? (fun (left, tokens) => fault? left tokens) = some e ↔
      FirstRefused ls e := by
  rw [findSome?_fault?_eq_some_iff]
  constructor
  · rintro ⟨rs, r, rest, rfl, hrs, fine, tokens, more, ht, hfine, hf⟩
    obtain ⟨before, l, after, rfl, hb, hg⟩ := h.split
    obtain ⟨body, hbody, hr⟩ := hg.hasBody
    rw [hr] at ht
    obtain ⟨pieces, _, hs, rfl, hm⟩ := List.map_eq_append_iff.mp ht
    obtain ⟨piece, more, rfl, rfl, -⟩ := List.map_eq_cons_iff.mp hm
    exact ⟨before, l, after, body, pieces, piece, more, r.left, rfl, hb.bodyAllowed_iff.mpr hrs,
      hbody, hs, List.forall_mem_map.mp hfine, (hg.under hb).mpr rfl, hf⟩
  · rintro ⟨before, l, after, body, pieces, piece, more, left, rfl, hb, hbody, hs, hp, hu, hf⟩
    obtain ⟨rs, _, hbefore, ha, rfl⟩ := reads_append_iff.mp h
    obtain ⟨rs', rest, hg, -, rfl⟩ := reads_cons_iff.mp ha
    obtain ⟨left', rfl⟩ := hg.eq_of_hasBody hbody
    obtain rfl : left' = left := (hg.under hbefore).mp hu
    refine ⟨rs, _, rest, rfl, hbefore.bodyAllowed_iff.mp hb, pieces.map words, words piece,
      more.map words, ?_, List.forall_mem_map.mpr hp, hf⟩
    rw [readAlternatives, hs, List.map_append, List.map_cons]

theorem Reads.eq_nil_iff (h : Reads previous ls rules) : rules = [] ↔ ∀ l ∈ ls, Blank l := by
  have hg : ∀ {previous l rs}, Gives previous l rs → (rs = [] ↔ Blank l) := by
    intro previous l rs hg
    cases hg with
    | blank hl => simp [hl]
    | rule hl => simpa using fun hb => not_isRule_of_blank hb hl
    | continuation hl => simpa using fun hb => not_hasBody_of_blank hb (.inr hl)
  induction ls generalizing previous rules with
  | nil =>
    cases h
    simp
  | cons l ls ih =>
    obtain ⟨rs, rest, hl, hr, rfl⟩ := reads_cons_iff.mp h
    rw [List.append_eq_nil_iff, List.forall_mem_cons]
    exact and_congr (hg hl) (ih hr)

end Rule

namespace Grammar

open Rule

theorem exists_ofText_iff {text : String} :
    (∃ g, Grammar.ofText text = .ok g) ↔ Accepts (lines text.toList) := by
  have hiff : (∃ g, Grammar.ofText text = .ok g) ↔
      ∃ rules, Reads none (lines text.toList) rules ∧ ∃ g, Grammar.ofRules rules = .ok g := by
    simp only [Grammar.ofText, bind_eq_ok_iff, ofText_eq_ok_iff]
    constructor
    · rintro ⟨g, rules, hr, h⟩
      exact ⟨rules, hr, g, h⟩
    · rintro ⟨rules, hr, g, h⟩
      exact ⟨g, rules, hr, h⟩
  rw [hiff]
  constructor
  · rintro ⟨rules, hr, h⟩
    obtain ⟨hu, hne, ha⟩ := exists_ofRules_iff.mp h
    refine ⟨?_, shaped_iff.mpr ⟨rules, hr⟩, ?_, hr.bodyAllowed_iff.mpr ha⟩
    · simpa [hr.eq_nil_iff] using hne
    · exact hr.leftAllowed_iff.mpr (unreserved_declared_iff.mp hu)
  · rintro ⟨⟨l, hl, hb⟩, hs, hlefts, hbodies⟩
    obtain ⟨rules, hr⟩ := shaped_iff.mp hs
    have hne : rules ≠ [] := fun h => hb (hr.eq_nil_iff.mp h l hl)
    have hu := unreserved_declared_iff.mpr (hr.leftAllowed_iff.mp hlefts)
    exact ⟨rules, hr, exists_ofRules_iff.mpr ⟨hu, hne, hr.bodyAllowed_iff.mp hbodies⟩⟩

/-- Why lines that are all in order are refused. -/
theorem ofRules_eq_error_iff_of_reads {ls : List (List Char)} (h : Reads none ls rules) :
    Grammar.ofRules rules = .error e ↔
      (∃ left, FirstReserved ls left ∧ e = .reservedToken left left) ∨
        (∀ l ∈ ls, LeftAllowed l) ∧
          ((∀ l ∈ ls, Blank l) ∧ e = .noStartSymbol ∨ FirstRefused ls e) := by
  rw [ofRules_eq_error_iff, ← findSome?_reservedLeft?, h.reservedLeft_iff, unreserved_declared_iff,
    ← h.leftAllowed_iff, declared_eq_nil_iff, h.eq_nil_iff, h.fault_iff]

theorem refuses_of_ofText {text : String} (h : Grammar.ofText text = .error e) :
    Refuses (lines text.toList) e := by
  cases hr : Rule.ofText text with
  | error e' =>
    obtain rfl : e' = e := by
      rw [Grammar.ofText, hr] at h
      exact Except.error.inj h
    obtain ⟨number, fault, hf, rfl⟩ := ofText_eq_error_iff.mp hr
    exact .line hf
  | ok rules =>
    have hreads := ofText_eq_ok_iff.mp hr
    have hs := shaped_iff.mpr ⟨rules, hreads⟩
    rw [hreads.ofText_eq] at h
    obtain ⟨left, hleft, rfl⟩ | ⟨hlefts, ⟨hb, rfl⟩ | hf⟩ :=
      (ofRules_eq_error_iff_of_reads hreads).mp h
    · exact .left hs hleft
    · exact .blank hb
    · exact .alternative hs hlefts hf

theorem ofText_of_refuses {text : String} (h : Refuses (lines text.toList) e) :
    Grammar.ofText text = .error e := by
  cases h with
  | line hf =>
    rw [Grammar.ofText, ofText_eq_error_iff.mpr ⟨_, _, hf, rfl⟩]
    rfl
  | left hs hleft =>
    obtain ⟨rules, hr⟩ := shaped_iff.mp hs
    rw [hr.ofText_eq]
    exact (ofRules_eq_error_iff_of_reads hr).mpr (.inl ⟨_, hleft, rfl⟩)
  | blank hb =>
    have hs : Shaped (lines text.toList) := fun before l after he => .inl (hb l (by simp [he]))
    have hlefts : ∀ l ∈ lines text.toList, LeftAllowed l :=
      fun l hl left body hr => absurd hr (not_isRule_of_blank (hb l hl))
    obtain ⟨rules, hr⟩ := shaped_iff.mp hs
    rw [hr.ofText_eq]
    exact (ofRules_eq_error_iff_of_reads hr).mpr (.inr ⟨hlefts, .inl ⟨hb, rfl⟩⟩)
  | alternative hs hlefts hf =>
    obtain ⟨rules, hr⟩ := shaped_iff.mp hs
    rw [hr.ofText_eq]
    exact (ofRules_eq_error_iff_of_reads hr).mpr (.inr ⟨hlefts, .inr hf⟩)

/-- A text is read iff it is in the language, and otherwise its first fault is reported. -/
theorem ofText_accepts_refuses (text : String) :
    ((∃ g, Grammar.ofText text = .ok g) ↔ Accepts (lines text.toList)) ∧
      (∀ e, Grammar.ofText text = .error e ↔ Refuses (lines text.toList) e) ∧
      (Grammar.ofText text = .error .noStartSymbol ↔ ∀ l ∈ lines text.toList, Blank l) := by
  refine ⟨exists_ofText_iff, fun e => ⟨refuses_of_ofText, ofText_of_refuses⟩, fun h => ?_, ?_⟩
  · cases refuses_of_ofText h with
    | blank hb => exact hb
    | alternative _ _ hf =>
      obtain ⟨_, _, _, _, _, _, _, _, -, -, -, -, -, -, hf⟩ := hf
      cases hf
  · exact fun hb => ofText_of_refuses (.blank hb)

example : Grammar.ofText "ε -> a | ε b\n\n S T -> a -> b" = .error (.line 3 .tooManyArrows) := rfl

example : Grammar.ofText "S -> a |\n   | $\n$ -> b" = .error (.reservedToken "$" "$") := rfl

end Grammar

end Predictive
