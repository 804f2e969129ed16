import Predictive.Text.Json

namespace Predictive.Json

/-- A property of all documents, by the parts of arrays and objects. -/
@[elab_as_elim]
theorem induction {P : Json → Prop} (null : P .null) (bool : ∀ value, P (.bool value))
    (string : ∀ value, P (.string value)) (array : ∀ items, (∀ j ∈ items, P j) → P (.array items))
    (object : ∀ fields, (∀ f ∈ fields, P f.2) → P (.object fields)) (j : Json) : P j := by
  refine @Json.rec P (fun items => ∀ j ∈ items, P j) (fun fields => ∀ f ∈ fields, P f.2)
    (fun f => P f.2) null bool string array object nofun ?_ nofun ?_ (fun _ _ h => h) j
  · intro j items hj hitems
    exact List.forall_mem_cons.mpr ⟨hj, hitems⟩
  · intro f fields hf hfields
    exact List.forall_mem_cons.mpr ⟨hf, hfields⟩

theorem itemChars_eq (items : List Json) : itemChars items = items.map chars := by
  induction items with
  | nil => rfl
  | cons j items ih => rw [itemChars, ih, List.map_cons]

theorem fieldsChars_eq (fields : List (String × Json)) : fieldsChars fields = fields.map fieldChars := by
  induction fields with
  | nil => rfl
  | cons f fields ih => rw [fieldsChars, ih, List.map_cons]

theorem separated_cons_cons (item next : List Char) (rest : List (List Char)) :
    separated (item :: next :: rest) = item ++ ',' :: separated (next :: rest) := rfl

/-- The characters that may stand between two parts of a text without a meaning. -/
def isGap (c : Char) : Bool := c = ' ' || c = '\t' || c = '\n' || c = '\r'

def skip (cs : List Char) : List Char := cs.dropWhile isGap

/-- What a letter means behind a backslash. -/
def escaped? : Char → Option Char
  | '"' => some '"'
  | '\\' => some '\\'
  | '/' => some '/'
  | 'b' => some '\x08'
  | 'f' => some '\x0c'
  | 'n' => some '\n'
  | 'r' => some '\r'
  | 't' => some '\t'
  | _ => none

def hexValue? (c : Char) : Option Nat :=
  if '0' ≤ c ∧ c ≤ '9' then some (c.toNat - '0'.toNat)
  else if 'a' ≤ c ∧ c ≤ 'f' then some (c.toNat - 'a'.toNat + 10)
  else if 'A' ≤ c ∧ c ≤ 'F' then some (c.toNat - 'A'.toNat + 10)
  else none

/-- The number that four hexadecimal digits write. -/
def unit? (digits : List Char) : Option Nat :=
  if digits.length = 4 then
    digits.foldlM (fun n c => (hexValue? c).map (16 * n + ·)) 0
  else none

def isHighSurrogate (n : Nat) : Bool := 0xD800 ≤ n && n < 0xDC00

def isLowSurrogate (n : Nat) : Bool := 0xDC00 ≤ n && n < 0xE000

/-- The beginning of the text stands for one character of a string. A character above the first
sixty-five thousand has two numbers, and half of such a pair stands for nothing. -/
inductive Codes : List Char → Char → List Char → Prop
  | plain {c rest} : c ≠ '"' → c ≠ '\\' → 0x20 ≤ c.toNat → Codes (c :: rest) c rest
  | escape {e c rest} : escaped? e = some c → Codes ('\\' :: e :: rest) c rest
  | unit {x y z w n rest} : unit? [x, y, z, w] = some n → ¬ isHighSurrogate n →
      ¬ isLowSurrogate n → Codes ('\\' :: 'u' :: x :: y :: z :: w :: rest) (.ofNat n) rest
  | pair {x y z w x' y' z' w' n m rest} : unit? [x, y, z, w] = some n → isHighSurrogate n →
      unit? [x', y', z', w'] = some m → isLowSurrogate m →
      Codes ('\\' :: 'u' :: x :: y :: z :: w :: '\\' :: 'u' :: x' :: y' :: z' :: w' :: rest)
        (.ofNat (0x10000 + (n - 0xD800) * 0x400 + (m - 0xDC00))) rest

/-- The characters of a string, whose opening quote has been read, up to the closing one. -/
inductive Quotes : List Char → List Char → List Char → Prop
  | close {rest} : Quotes ('"' :: rest) [] rest
  | cons {l c m cs rest} : Codes l c m → Quotes m cs rest → Quotes l (c :: cs) rest

/-- A document, or what is inside an array or an object that is not empty. -/
inductive Part
  | document (document : Json)
  | items (items : List Json)
  | field (field : String × Json)
  | fields (fields : List (String × Json))

/-- The text begins with this part of a document, and the rest of it is left: the grammar of JSON,
numbers apart. -/
inductive Reads : List Char → Part → List Char → Prop
  | null {rest} : Reads ('n' :: 'u' :: 'l' :: 'l' :: rest) (.document .null) rest
  | true {rest} : Reads ('t' :: 'r' :: 'u' :: 'e' :: rest) (.document (.bool true)) rest
  | false {rest} : Reads ('f' :: 'a' :: 'l' :: 's' :: 'e' :: rest) (.document (.bool false)) rest
  | string {l cs rest} : Quotes l cs rest →
      Reads ('"' :: l) (.document (.string (.ofList cs))) rest
  | emptyArray {l rest} : skip l = ']' :: rest → Reads ('[' :: l) (.document (.array [])) rest
  | array {l items rest} : Reads (skip l) (.items items) rest →
      Reads ('[' :: l) (.document (.array items)) rest
  | emptyObject {l rest} : skip l = '\x7d' :: rest →
      Reads ('\x7b' :: l) (.document (.object [])) rest
  | object {l fields rest} : Reads (skip l) (.fields fields) rest →
      Reads ('\x7b' :: l) (.document (.object fields)) rest
  | lastItem {l j m rest} : Reads l (.document j) m → skip m = ']' :: rest →
      Reads l (.items [j]) rest
  | moreItems {l j m l' items rest} : Reads l (.document j) m → skip m = ',' :: l' →
      Reads (skip l') (.items items) rest → Reads l (.items (j :: items)) rest
  | field {l key m l' j rest} : Quotes l key m → skip m = ':' :: l' →
      Reads (skip l') (.document j) rest → Reads ('"' :: l) (.field (.ofList key, j)) rest
  | lastField {l f m rest} : Reads l (.field f) m → skip m = '\x7d' :: rest →
      Reads l (.fields [f]) rest
  | moreFields {l f m l' fields rest} : Reads l (.field f) m → skip m = ',' :: l' →
      Reads (skip l') (.fields fields) rest → Reads l (.fields (f :: fields)) rest

/-- The text is that of one document, with nothing behind it. -/
def Denotes (text : String) (j : Json) : Prop :=
  ∃ rest, Reads (skip text.toList) (.document j) rest ∧ skip rest = []

variable {l m m' cs cs' rest rest' : List Char} {c c' : Char} {p p' : Part} {j j' : Json}

theorem Codes.unique (h : Codes l c m) (h' : Codes l c' m') : c = c' ∧ m = m' := by
  cases h with
  | plain _ hb _ =>
    cases h' with
    | plain => exact ⟨rfl, rfl⟩
    | escape | unit | pair => exact absurd rfl hb
  | escape he =>
    cases h' with
    | plain _ hb _ => exact absurd rfl hb
    | escape he' => exact ⟨Option.some.inj (he.symm.trans he'), rfl⟩
    | unit | pair => cases he
  | unit hn hhigh _ =>
    cases h' with
    | plain _ hb _ => exact absurd rfl hb
    | escape he => cases he
    | unit hn' _ _ =>
      obtain rfl := Option.some.inj (hn.symm.trans hn')
      exact ⟨rfl, rfl⟩
    | pair hn' hhigh' _ _ =>
      obtain rfl := Option.some.inj (hn.symm.trans hn')
      exact absurd hhigh' hhigh
  | pair hn hhigh hm _ =>
    cases h' with
    | plain _ hb _ => exact absurd rfl hb
    | escape he => cases he
    | unit hn' hhigh' _ =>
      obtain rfl := Option.some.inj (hn.symm.trans hn')
      exact absurd hhigh hhigh'
    | pair hn' _ hm' _ =>
      obtain rfl := Option.some.inj (hn.symm.trans hn')
      obtain rfl := Option.some.inj (hm.symm.trans hm')
      exact ⟨rfl, rfl⟩

theorem not_codes_quote : ¬ Codes ('"' :: l) c m := by
  rintro (⟨hq, -, -⟩)
  exact hq rfl

theorem Quotes.unique (h : Quotes l cs rest) (h' : Quotes l cs' rest') :
    cs = cs' ∧ rest = rest' := by
  induction h generalizing cs' with
  | close =>
    cases h' with
    | close => exact ⟨rfl, rfl⟩
    | cons hc _ => exact absurd hc not_codes_quote
  | cons hc _ ih =>
    cases h' with
    | close => exact absurd hc not_codes_quote
    | cons hc' h' =>
      obtain ⟨rfl, rfl⟩ := hc.unique hc'
      obtain ⟨rfl, rfl⟩ := ih h'
      exact ⟨rfl, rfl⟩

theorem not_reads_bracket {items : List Json} : ¬ Reads (']' :: l) (.items items) rest := by
  intro h
  cases h with
  | lastItem hj _ | moreItems hj _ _ => cases hj

theorem not_reads_brace {fields : List (String × Json)} :
    ¬ Reads ('\x7d' :: l) (.fields fields) rest := by
  intro h
  cases h with
  | lastField hf _ | moreFields hf _ _ => cases hf

/-- Nothing else of the same kind can be read there. -/
def Part.Only (l rest : List Char) : Part → Prop
  | .document j => ∀ j' rest', Reads l (.document j') rest' → j' = j ∧ rest' = rest
  | .items js => ∀ js' rest', Reads l (.items js') rest' → js' = js ∧ rest' = rest
  | .field f => ∀ f' rest', Reads l (.field f') rest' → f' = f ∧ rest' = rest
  | .fields fs => ∀ fs' rest', Reads l (.fields fs') rest' → fs' = fs ∧ rest' = rest

theorem Reads.only (h : Reads l p rest) : p.Only l rest := by
  induction h with
  | null | true | false =>
    rintro _ _ ⟨⟩
    exact ⟨rfl, rfl⟩
  | string hq =>
    intro _ _ h'
    cases h' with
    | string hq' =>
      obtain ⟨rfl, rfl⟩ := hq.unique hq'
      exact ⟨rfl, rfl⟩
  | emptyArray hs =>
    intro _ _ h'
    cases h' with
    | emptyArray hs' =>
      cases hs.symm.trans hs'
      exact ⟨rfl, rfl⟩
    | array hi =>
      rw [hs] at hi
      exact absurd hi not_reads_bracket
  | array hi ih =>
    intro _ _ h'
    cases h' with
    | emptyArray hs =>
      rw [hs] at hi
      exact absurd hi not_reads_bracket
    | array hi' =>
      obtain ⟨rfl, rfl⟩ := ih _ _ hi'
      exact ⟨rfl, rfl⟩
  | emptyObject hs =>
    intro _ _ h'
    cases h' with
    | emptyObject hs' =>
      cases hs.symm.trans hs'
      exact ⟨rfl, rfl⟩
    | object hf =>
      rw [hs] at hf
      exact absurd hf not_reads_brace
  | object hf ih =>
    intro _ _ h'
    cases h' with
    | emptyObject hs =>
      rw [hs] at hf
      exact absurd hf not_reads_brace
    | object hf' =>
      obtain ⟨rfl, rfl⟩ := ih _ _ hf'
      exact ⟨rfl, rfl⟩
  | lastItem _ hs ih =>
    intro _ _ h'
    cases h' with
    | lastItem hj' hs' =>
      obtain ⟨rfl, rfl⟩ := ih _ _ hj'
      cases hs.symm.trans hs'
      exact ⟨rfl, rfl⟩
    | moreItems hj' hs' _ =>
      obtain ⟨rfl, rfl⟩ := ih _ _ hj'
      cases hs.symm.trans hs'
  | moreItems _ hs _ ihj ih =>
    intro _ _ h'
    cases h' with
    | lastItem hj' hs' =>
      obtain ⟨rfl, rfl⟩ := ihj _ _ hj'
      cases hs.symm.trans hs'
    | moreItems hj' hs' hi' =>
      obtain ⟨rfl, rfl⟩ := ihj _ _ hj'
      cases hs.symm.trans hs'
      obtain ⟨rfl, rfl⟩ := ih _ _ hi'
      exact ⟨rfl, rfl⟩
  | field hq hs _ ih =>
    intro _ _ h'
    cases h' with
    | field hq' hs' hj' =>
      obtain ⟨rfl, rfl⟩ := hq.unique hq'
      cases hs.symm.trans hs'
      obtain ⟨rfl, rfl⟩ := ih _ _ hj'
      exact ⟨rfl, rfl⟩
  | lastField _ hs ih =>
    intro _ _ h'
    cases h' with
    | lastField hf' hs' =>
      obtain ⟨rfl, rfl⟩ := ih _ _ hf'
      cases hs.symm.trans hs'
      exact ⟨rfl, rfl⟩
    | moreFields hf' hs' _ =>
      obtain ⟨rfl, rfl⟩ := ih _ _ hf'
      cases hs.symm.trans hs'
  | moreFields _ hs _ ihf ih =>
    intro _ _ h'
    cases h' with
    | lastField hf' hs' =>
      obtain ⟨rfl, rfl⟩ := ihf _ _ hf'
      cases hs.symm.trans hs'
    | moreFields hf' hs' hfs' =>
      obtain ⟨rfl, rfl⟩ := ihf _ _ hf'
      cases hs.symm.trans hs'
      obtain ⟨rfl, rfl⟩ := ih _ _ hfs'
      exact ⟨rfl, rfl⟩

/-- No text is that of two documents. -/
theorem Denotes.unique {text : String} (h : Denotes text j) (h' : Denotes text j') : j = j' := by
  obtain ⟨_, h, -⟩ := h
  obtain ⟨_, h', -⟩ := h'
  exact (h'.only _ _ h).1

theorem hexValue?_digitChar {n : Nat} (h : n < 16) : hexValue? n.digitChar = some n := by
  have hall : ∀ m < 16, hexValue? (Nat.digitChar m) = some m := by decide
  exact hall n h

theorem unit?_hexDigits {n : Nat} (h : n < 0x20) :
    unit? ('0' :: '0' :: hexDigits n) = some n := by
  have hd : hexValue? (Nat.digitChar (n / 16)) = some (n / 16) := hexValue?_digitChar (by omega)
  have hm : hexValue? (Nat.digitChar (n % 16)) = some (n % 16) := hexValue?_digitChar (by omega)
  have hz : hexValue? '0' = some 0 := rfl
  simp only [unit?, hexDigits, List.length_cons, List.length_nil, Nat.reduceAdd, if_pos,
    List.foldlM_cons, List.foldlM_nil, hd, hm, hz, Option.map_some, Option.bind_eq_bind,
    Option.bind_some, Option.pure_def, Option.some.injEq]
  omega

theorem codes_escapeChar (c : Char) (rest : List Char) : Codes (escapeChar c ++ rest) c rest := by
  unfold escapeChar
  split
  · exact .escape rfl
  · exact .escape rfl
  · exact .escape rfl
  · exact .escape rfl
  · exact .escape rfl
  · exact .escape rfl
  · exact .escape rfl
  · next hquote hslash _ _ _ _ _ =>
    split
    · next hc =>
      have hu := unit?_hexDigits hc
      have hhigh : ¬ isHighSurrogate c.toNat := by
        simp [isHighSurrogate]
        omega
      have hlow : ¬ isLowSurrogate c.toNat := by
        simp [isLowSurrogate]
        omega
      have h : Codes (['\\', 'u', '0', '0'] ++ hexDigits c.toNat ++ rest) (.ofNat c.toNat) rest :=
        .unit hu hhigh hlow
      rwa [Char.ofNat_toNat] at h
    · next hc => exact .plain hquote hslash (Nat.le_of_not_lt hc)

theorem quotes_flatMap (cs rest : List Char) :
    Quotes (cs.flatMap escapeChar ++ '"' :: rest) cs rest := by
  induction cs with
  | nil => exact .close
  | cons c cs ih =>
    rw [List.flatMap_cons, List.append_assoc]
    exact .cons (codes_escapeChar c _) ih

/-- Every document begins with a character that is not skipped. -/
theorem skip_chars (j : Json) (rest : List Char) : skip (chars j ++ rest) = chars j ++ rest := by
  cases j with
  | bool value => cases value <;> rfl
  | null | string _ | array _ | object _ => rfl

theorem quoted_append (s : String) (rest : List Char) :
    quoted s ++ rest = '"' :: (s.toList.flatMap escapeChar ++ '"' :: rest) := by
  simp [quoted]

theorem skip_fieldChars (f : String × Json) (rest : List Char) :
    skip (fieldChars f ++ rest) = fieldChars f ++ rest := by
  obtain ⟨key, value⟩ := f
  rw [fieldChars, List.append_assoc, quoted_append]
  rfl

theorem skip_separated {item : List Char} (h : ∀ rest, skip (item ++ rest) = item ++ rest)
    (items : List (List Char)) (rest : List Char) :
    skip (separated (item :: items) ++ rest) = separated (item :: items) ++ rest := by
  cases items with
  | nil => exact h rest
  | cons next items =>
    rw [separated_cons_cons, List.append_assoc]
    exact h _

theorem reads_items {items : List Json} (hne : items ≠ [])
    (ih : ∀ j ∈ items, ∀ rest, Reads (chars j ++ rest) (.document j) rest) (rest : List Char) :
    Reads (separated (items.map chars) ++ ']' :: rest) (.items items) rest := by
  induction items with
  | nil => exact absurd rfl hne
  | cons j items ihi =>
    have ⟨hj, hitems⟩ := List.forall_mem_cons.mp ih
    cases items with
    | nil => exact .lastItem (hj _) rfl
    | cons k items =>
      have hk := ihi (List.cons_ne_nil k items) hitems
      rw [List.map_cons] at hk
      rw [List.map_cons, List.map_cons, separated_cons_cons, List.append_assoc, List.cons_append]
      refine .moreItems (hj _) rfl ?_
      rw [skip_separated (skip_chars k)]
      exact hk

theorem reads_field {f : String × Json}
    (ih : ∀ rest, Reads (chars f.2 ++ rest) (.document f.2) rest) (rest : List Char) :
    Reads (fieldChars f ++ rest) (.field f) rest := by
  obtain ⟨key, value⟩ := f
  rw [fieldChars, List.append_assoc, quoted_append, List.cons_append]
  have h : Reads (skip (chars value ++ rest)) (.document value) rest := by
    rw [skip_chars]
    exact ih rest
  have hq := quotes_flatMap key.toList (':' :: (chars value ++ rest))
  have hf := Reads.field hq rfl h
  rwa [String.ofList_toList] at hf

theorem reads_fields {fields : List (String × Json)} (hne : fields ≠ [])
    (ih : ∀ f ∈ fields, ∀ rest, Reads (chars f.2 ++ rest) (.document f.2) rest)
    (rest : List Char) :
    Reads (separated (fields.map fieldChars) ++ '\x7d' :: rest) (.fields fields) rest := by
  induction fields with
  | nil => exact absurd rfl hne
  | cons f fields ihf =>
    have ⟨hf, hfields⟩ := List.forall_mem_cons.mp ih
    cases fields with
    | nil => exact .lastField (reads_field hf _) rfl
    | cons k fields =>
      have hk := ihf (List.cons_ne_nil k fields) hfields
      rw [List.map_cons] at hk
      rw [List.map_cons, List.map_cons, separated_cons_cons, List.append_assoc, List.cons_append]
      refine .moreFields (reads_field hf _) rfl ?_
      rw [skip_separated (skip_fieldChars k)]
      exact hk

theorem reads_chars (j : Json) (rest : List Char) : Reads (chars j ++ rest) (.document j) rest := by
  induction j using Json.induction generalizing rest with
  | null => exact .null
  | bool value =>
    cases value with
    | true => exact .true
    | false => exact .false
  | string s =>
    rw [chars, quoted_append]
    have h := Reads.string (quotes_flatMap s.toList rest)
    rwa [String.ofList_toList] at h
  | array items ih =>
    rw [chars, itemChars_eq, List.append_assoc, List.cons_append, List.singleton_append]
    cases items with
    | nil => exact .emptyArray rfl
    | cons j items =>
      have h := reads_items (List.cons_ne_nil j items) ih rest
      refine .array ?_
      rw [List.map_cons] at h ⊢
      rwa [skip_separated (skip_chars j)]
  | object fields ih =>
    rw [chars, fieldsChars_eq, List.append_assoc, List.cons_append, List.singleton_append]
    cases fields with
    | nil => exact .emptyObject rfl
    | cons f fields =>
      have h := reads_fields (List.cons_ne_nil f fields) ih rest
      refine .object ?_
      rw [List.map_cons] at h ⊢
      rwa [skip_separated (skip_fieldChars f)]

/-- What is written for a document is read as that document and no other. -/
theorem denotes_render_iff (j : Json) : Denotes j.render j' ↔ j' = j := by
  have h : Denotes j.render j := by
    refine ⟨[], ?_, rfl⟩
    have hs := skip_chars j []
    have hr := reads_chars j []
    rw [List.append_nil] at hs hr
    rw [render, String.toList_ofList, hs]
    exact hr
  constructor
  · intro h'
    exact h'.unique h
  · rintro rfl
    exact h

theorem le_toNat_digitChar {n : Nat} (h : n < 16) : 0x20 ≤ n.digitChar.toNat := by
  have hall : ∀ m < 16, 0x20 ≤ (Nat.digitChar m).toNat := by decide
  exact hall n h

/-- Not a control character. -/
theorem le_toNat_escapeChar : ∀ d ∈ escapeChar c, 0x20 ≤ d.toNat := by
  unfold escapeChar
  split
  · simp
  · simp
  · simp
  · simp
  · simp
  · simp
  · simp
  · split
    · next hc =>
      have hd : 0x20 ≤ (Nat.digitChar (c.toNat / 16)).toNat := le_toNat_digitChar (by omega)
      have hm : 0x20 ≤ (Nat.digitChar (c.toNat % 16)).toNat := le_toNat_digitChar (by omega)
      simp [hexDigits, hd, hm]
    · next hc => simpa using hc

theorem forall_mem_separated {P : Char → Prop} (hcomma : P ',') {items : List (List Char)}
    (h : ∀ item ∈ items, ∀ c ∈ item, P c) : ∀ c ∈ separated items, P c := by
  induction items with
  | nil => exact nofun
  | cons item items ih =>
    have ⟨hitem, hitems⟩ := List.forall_mem_cons.mp h
    cases items with
    | nil => exact hitem
    | cons next items =>
      rw [separated_cons_cons, List.forall_mem_append, List.forall_mem_cons]
      exact ⟨hitem, hcomma, ih hitems⟩

theorem le_toNat_quoted (s : String) : ∀ c ∈ quoted s, 0x20 ≤ c.toNat := by
  simp only [quoted, List.cons_append, List.forall_mem_cons, List.forall_mem_append,
    List.mem_flatMap]
  refine ⟨by simp, ?_, by simp⟩
  rintro d ⟨c, -, hd⟩
  exact le_toNat_escapeChar d hd

/-- The text of a document is a single line, for it has no control characters at all. -/
theorem le_toNat_chars (j : Json) : ∀ c ∈ chars j, 0x20 ≤ c.toNat := by
  induction j using Json.induction with
  | null => simp [chars]
  | bool value => cases value <;> simp [chars]
  | string s => exact le_toNat_quoted s
  | array items ih =>
    rw [chars, itemChars_eq, List.forall_mem_append, List.forall_mem_cons]
    refine ⟨⟨by simp, ?_⟩, by simp⟩
    exact forall_mem_separated (by simp) (List.forall_mem_map.mpr ih)
  | object fields ih =>
    rw [chars, fieldsChars_eq, List.forall_mem_append, List.forall_mem_cons]
    refine ⟨⟨by simp, ?_⟩, by simp⟩
    refine forall_mem_separated (by simp) (List.forall_mem_map.mpr ?_)
    rintro ⟨key, value⟩ hf
    rw [fieldChars, List.forall_mem_append, List.forall_mem_cons]
    exact ⟨le_toNat_quoted key, by simp, ih _ hf⟩

end Predictive.Json
