import Predictive.Proofs.Answers

namespace Predictive

/-- The level that is asked for by flags; a wish for quiet goes before all others. -/
def Level.ofVolume (verbosity : Nat) (quiet : Bool) : Level :=
  if quiet then .error
  else
    match verbosity with
    | 0 => .warn
    | 1 => .info
    | 2 => .debug
    | _ => .trace

namespace Arguments

/-- One argument for each letter; a letter that takes a value keeps all that is behind it. -/
def apart : List Char → List String
  | [] => []
  | c :: cs =>
    if c = 'f' ∨ c = 'i' then [String.ofList ('-' :: c :: cs)]
    else String.ofList ['-', c] :: apart cs

def separated (arg : String) : List String :=
  match arg.toList with
  | '-' :: c :: cs => if c = '-' then [arg] else apart (c :: cs)
  | _ => [arg]

/-- The same command line with one option in each argument. -/
def spelledOut (args : List String) : List String := args.flatMap separated

def isVerbose (arg : String) : Bool := arg = "-v" || arg = "--verbose"

def isQuiet (arg : String) : Bool := arg = "-q" || arg = "--quiet"

def isVolume (arg : String) : Bool := isVerbose arg || isQuiet arg

/-- What is left of a command line without its flags for the volume. -/
def unvoiced (args : List String) : List String := (spelledOut args).filter fun arg => !isVolume arg

/-- The level that a command line asks for. -/
def level (args : List String) : Level :=
  .ofVolume ((spelledOut args).countP isVerbose) ((spelledOut args).any isQuiet)

/-- None of the arguments is a flag for the volume. -/
def Silent (args : List String) : Prop := ∀ arg ∈ args, isVolume arg = false

theorem silent_singleton {arg : String} (h : isVolume arg = false) : Silent [arg] :=
  List.forall_mem_singleton.mpr h

namespace Silent

variable {args : List String}

theorem filter_eq (h : Silent args) : (args.filter fun arg => !isVolume arg) = args := by
  rw [List.filter_eq_self]
  exact fun arg ha => by rw [h arg ha, Bool.not_false]

theorem countP_eq (h : Silent args) : args.countP isVerbose = 0 := by
  rw [List.countP_eq_zero]
  exact fun arg ha => by simpa using (Bool.or_eq_false_iff.mp (h arg ha)).1

theorem any_eq (h : Silent args) : args.any isQuiet = false := by
  rw [List.any_eq_false]
  exact fun arg ha => by simpa using (Bool.or_eq_false_iff.mp (h arg ha)).2

end Silent

end Arguments

namespace Options

variable {o o' : Options} {flag : Flag} {v : Nat} {q : Bool}

def withVolume (verbosity : Nat) (quiet : Bool) (o : Options) : Options :=
  { o with verbosity := verbosity, quiet := quiet }

theorem raise?_withVolume (o : Options) (h : flag ≠ .verbose) (h' : flag ≠ .quiet) (v : Nat)
    (q : Bool) : (o.withVolume v q).raise? flag = (o.raise? flag).map (withVolume v q) := by
  cases flag with
  | verbose | quiet => contradiction
  | trace => cases ht : o.trace <;> simp [raise?, withVolume, ht]
  | latex => cases hl : o.latex <;> simp [raise?, withVolume, hl]
  | json => cases hj : o.json <;> simp [raise?, withVolume, hj]

/-- What is read in the same way at each volume has the volume it is read at. -/
theorem eq_of_steady {α : Type} (read : Options → Option α) (atVolume : Nat → Bool → α → α) {x : α}
    (hs : ∀ v q, read (o.withVolume v q) = (read o).map (atVolume v q)) (h : read o = some x) :
    x = atVolume o.verbosity o.quiet x := by
  have hown : read o = (read o).map (atVolume o.verbosity o.quiet) := hs o.verbosity o.quiet
  rw [h, Option.map_some] at hown
  exact Option.some.inj hown

theorem set?_withVolume (o : Options) (value : String) (setting : Setting) (v : Nat) (q : Bool) :
    (o.withVolume v q).set? value setting =
      (o.set? value setting).map (withVolume v q) := by
  cases setting with
  | file => cases hf : o.file.isSome || value.isEmpty <;> simp [set?, withVolume, hf]
  | input => rfl

theorem addOutput?_withVolume (o : Options) (word : String) (v : Nat) (q : Bool) :
    (o.withVolume v q).addOutput? word = (o.addOutput? word).map (withVolume v q) := by
  simp only [addOutput?, Option.map_map]
  rfl

theorem foldlM_addOutput?_withVolume (o : Options) (words : List String) (v : Nat) (q : Bool) :
    words.foldlM addOutput? (o.withVolume v q) =
      (words.foldlM addOutput? o).map (withVolume v q) := by
  induction words generalizing o with
  | nil => rfl
  | cons word words ih =>
    rw [List.foldlM_cons, List.foldlM_cons, addOutput?_withVolume]
    cases o.addOutput? word with
    | none => rfl
    | some o => exact ih o

/-- What a run does is the same at each volume. -/
theorem session_withVolume (o : Options) (s : Sources) (v : Nat) (q : Bool) :
    (o.withVolume v q).session s = o.session s := rfl

theorem level_withVolume (o : Options) (v : Nat) (q : Bool) :
    (o.withVolume v q).level = .ofVolume v q := rfl

end Options

section

variable {arg : String}

theorem isDetachedValue_iff : isDetachedValue arg ↔ ∀ c cs, arg.toList ≠ '-' :: c :: cs := by
  rw [isDetachedValue]
  split
  · next c cs h => exact iff_of_false Bool.false_ne_true fun hne => hne c cs h
  · next h => exact iff_of_true rfl h

theorem isDetachedValue_of_output {output : Output} (h : Output.ofWord? arg = some output) :
    isDetachedValue arg := by
  unfold Output.ofWord? at h
  split at h <;> cases h <;> rfl

theorem Arguments.isVolume_of_isDetachedValue (h : isDetachedValue arg) : isVolume arg = false := by
  have hne {c : Char} {cs : List Char} : arg ≠ String.ofList ('-' :: c :: cs) := by
    rintro rfl
    exact isDetachedValue_iff.mp h c cs String.toList_ofList
  have hv : arg ≠ "-v" := hne
  have hv' : arg ≠ "--verbose" := hne
  have hq : arg ≠ "-q" := hne
  have hq' : arg ≠ "--quiet" := hne
  simp [isVolume, isVerbose, isQuiet, hv, hv', hq, hq']

theorem Arguments.separated_of_isDetachedValue (h : isDetachedValue arg) :
    separated arg = [arg] := by
  rw [separated]
  split
  · next c cs harg => exact absurd harg (isDetachedValue_iff.mp h c cs)
  · rfl

end

def Invocation.withVolume (verbosity : Nat) (quiet : Bool) : Invocation → Invocation
  | run o => .run (o.withVolume verbosity quiet)
  | tell notice => .tell notice

namespace Reading

variable {o : Options} {arg : String} {args : List String}

def withVolume (verbosity : Nat) (quiet : Bool) : Reading → Reading
  | tell notice => .tell notice
  | await setting o => .await setting (o.withVolume verbosity quiet)
  | .continue o => .continue (o.withVolume verbosity quiet)

theorem ofArgument?_letters (o : Options) {c : Char} (h : c ≠ '-') (cs : List Char) :
    ofArgument? o (String.ofList ('-' :: c :: cs)) = ofLetters? o (c :: cs) := by
  rw [ofArgument?, String.toList_ofList]
  split
  · next he => simp_all
  · next he =>
    cases he
    rfl
  · next hne => exact absurd rfl (hne c cs)

/-- The arguments lead from the options to the reading. Without the flags for the volume they do so
at each volume, and the flags make up the volume of what is read. -/
structure Splits (o : Options) (args : List String) (reading : Reading) : Prop where
  resume_eq : ∀ v q rest,
    Invocation.ofArguments? (o.withVolume v q)
      ((args.filter fun arg => !Arguments.isVolume arg) ++ rest) =
        (reading.withVolume v q).resume rest
  volume_eq : reading = reading.withVolume (o.verbosity + args.countP Arguments.isVerbose)
    (o.quiet || args.any Arguments.isQuiet)

namespace Splits

variable {o₁ : Options} {reading : Reading}

theorem nil (o : Options) : Splits o [] (.continue o) :=
  ⟨fun _ _ _ => rfl, by simp [withVolume, Options.withVolume]⟩

theorem verbosity_eq (h : Splits o args (.continue o₁)) :
    o₁.verbosity = o.verbosity + args.countP Arguments.isVerbose :=
  congrArg Options.verbosity (Reading.continue.inj h.volume_eq)

theorem quiet_eq (h : Splits o args (.continue o₁)) :
    o₁.quiet = (o.quiet || args.any Arguments.isQuiet) :=
  congrArg Options.quiet (Reading.continue.inj h.volume_eq)

theorem append {args' : List String} (h : Splits o args (.continue o₁))
    (h' : Splits o₁ args' reading) : Splits o (args ++ args') reading where
  resume_eq v q rest := by
    rw [List.filter_append, List.append_assoc, h.resume_eq]
    exact h'.resume_eq v q rest
  volume_eq := by
    rw [List.countP_append, List.any_append, ← Nat.add_assoc, ← Bool.or_assoc, ← h.verbosity_eq,
      ← h.quiet_eq]
    exact h'.volume_eq

theorem append_tell {notice : Notice} (h : Splits o args (.tell notice)) (args' : List String) :
    Splits o (args ++ args') (.tell notice) where
  resume_eq v q rest := by
    rw [List.filter_append, List.append_assoc]
    exact h.resume_eq v q _
  volume_eq := rfl

theorem of_steady (hs : ∀ v q, ofArgument? (o.withVolume v q) arg =
      (ofArgument? o arg).map (withVolume v q))
    (hn : Arguments.isVolume arg = false) (h : ofArgument? o arg = some reading) :
    Splits o [arg] reading where
  resume_eq v q rest := by
    have hread : ofArgument? (o.withVolume v q) arg = some (reading.withVolume v q) := by
      rw [hs, h, Option.map_some]
    rw [(Arguments.silent_singleton hn).filter_eq, List.singleton_append,
      Invocation.ofArguments?_cons hread]
  volume_eq := by
    have hsilent := Arguments.silent_singleton hn
    rw [hsilent.countP_eq, hsilent.any_eq, Nat.add_zero, Bool.or_false]
    exact Options.eq_of_steady (ofArgument? · arg) withVolume hs h

/-- A value that is an argument of its own has no part in the volume. -/
theorem append_value {setting : Setting} {value : String} {o₂ : Options}
    (h : Splits o args (.await setting o₁)) (hd : isDetachedValue value)
    (hs : o₁.set? value setting = some o₂) : Splits o (args ++ [value]) (.continue o₂) where
  resume_eq v q rest := by
    have hsilent := Arguments.silent_singleton (Arguments.isVolume_of_isDetachedValue hd)
    rw [List.filter_append, hsilent.filter_eq, List.append_assoc, h.resume_eq,
      List.singleton_append, withVolume, resume, if_pos hd, Options.set?_withVolume, hs]
    rfl
  volume_eq := by
    have hsilent := Arguments.silent_singleton (Arguments.isVolume_of_isDetachedValue hd)
    have heq := (Reading.await.inj h.volume_eq).2
    have hv : o₁.verbosity = o.verbosity + args.countP Arguments.isVerbose :=
      congrArg Options.verbosity heq
    have hq : o₁.quiet = (o.quiet || args.any Arguments.isQuiet) := congrArg Options.quiet heq
    rw [List.countP_append, List.any_append, hsilent.countP_eq, hsilent.any_eq, Nat.add_zero,
      Bool.or_false, ← hv, ← hq]
    exact congrArg Reading.continue (Options.eq_of_steady (Options.set? · value setting)
      Options.withVolume (Options.set?_withVolume o₁ value setting) hs)

/-- An argument that raises a flag, and no other. -/
theorem of_raise {flag : Flag} (hr : ∀ o, ofArgument? o arg = (o.raise? flag).map .continue)
    (hv : Arguments.isVerbose arg = decide (flag = .verbose))
    (hq : Arguments.isQuiet arg = decide (flag = .quiet)) (h : o.raise? flag = some o₁) :
    Splits o [arg] (.continue o₁) := by
  by_cases hvolume : flag = .verbose ∨ flag = .quiet
  · have hdropped : [arg].filter (fun arg => !Arguments.isVolume arg) = [] := by
      simpa [Arguments.isVolume, hv, hq] using or_iff_not_imp_left.mp hvolume
    have hresume : ∀ v q rest, Invocation.ofArguments? (o.withVolume v q)
        ([arg].filter (fun arg => !Arguments.isVolume arg) ++ rest) =
          Invocation.ofArguments? (o.withVolume v q) rest := by
      intro v q rest
      rw [hdropped, List.nil_append]
    obtain rfl | rfl := hvolume
    · cases h
      have hcount : [arg].countP Arguments.isVerbose = 1 := by simp [hv]
      have hany : [arg].any Arguments.isQuiet = false := by simp [hq]
      refine ⟨hresume, ?_⟩
      rw [hcount, hany, Bool.or_false]
      rfl
    · obtain ⟨-, h⟩ := Option.ite_none_left_eq_some.mp h
      cases h
      have hcount : [arg].countP Arguments.isVerbose = 0 := by simp [hv]
      have hany : [arg].any Arguments.isQuiet = true := by simp [hq]
      refine ⟨hresume, ?_⟩
      rw [hcount, hany, Bool.or_true]
      rfl
  · rw [not_or] at hvolume
    refine of_steady (fun v q => ?_) ?_ ?_
    · rw [hr, hr, Options.raise?_withVolume o hvolume.1 hvolume.2, Option.map_map, Option.map_map]
      rfl
    · simp [Arguments.isVolume, hv, hq, hvolume.1, hvolume.2]
    · rw [hr, h]
      rfl

end Splits

theorem isVolume_letters {c : Char} (h : c ≠ '-') (hv : c ≠ 'v') (hq : c ≠ 'q') (cs : List Char) :
    Arguments.isVolume (String.ofList ('-' :: c :: cs)) = false := by
  simp [Arguments.isVolume, Arguments.isVerbose, Arguments.isQuiet, ← String.toList_inj, h, hv, hq]

section

variable {c : Char} {reading : Reading} {notice : Notice} {flag : Flag} {setting : Setting}

theorem ofLetter?_eq_notice (h : OptionName.ofLetter? c = some (.notice notice)) :
    c = 'h' ∨ c = 'V' := by
  unfold OptionName.ofLetter? at h
  split at h <;> simp_all

theorem ofLetter?_eq_setting (h : OptionName.ofLetter? c = some (.setting setting)) :
    c = 'f' ∨ c = 'i' := by
  unfold OptionName.ofLetter? at h
  split at h <;> simp_all

theorem ofLetter?_eq_flag (h : OptionName.ofLetter? c = some (.flag flag)) :
    c = 't' ∧ flag = .trace ∨ c = 'l' ∧ flag = .latex ∨ c = 'j' ∧ flag = .json ∨
      c = 'v' ∧ flag = .verbose ∨ c = 'q' ∧ flag = .quiet := by
  unfold OptionName.ofLetter? at h
  split at h <;> simp_all

theorem ne_hyphen_of_ofLetter? {name : OptionName} (h : OptionName.ofLetter? c = some name) :
    c ≠ '-' := by
  rintro rfl
  cases h

theorem splits_flagLetter {o₁ : Options} (h : OptionName.ofLetter? c = some (.flag flag))
    (ho : o.raise? flag = some o₁) : Splits o [String.ofList ['-', c]] (.continue o₁) := by
  have hread (o : Options) :
      ofArgument? o (String.ofList ['-', c]) = (o.raise? flag).map .continue := by
    rw [ofArgument?_letters o (ne_hyphen_of_ofLetter? h), ofLetters?]
    simp only [h, ofLetters?, Option.map_eq_bind]
    rfl
  refine .of_raise hread ?_ ?_ ho
  all_goals
    obtain ⟨rfl, rfl⟩ | ⟨rfl, rfl⟩ | ⟨rfl, rfl⟩ | ⟨rfl, rfl⟩ | ⟨rfl, rfl⟩ := ofLetter?_eq_flag h <;>
      rfl

theorem splits_noticeLetter (h : OptionName.ofLetter? c = some (.notice notice)) :
    Splits o [String.ofList ['-', c]] (.tell notice) := by
  have hread (o : Options) : ofArgument? o (String.ofList ['-', c]) = some (.tell notice) := by
    rw [ofArgument?_letters o (ne_hyphen_of_ofLetter? h), ofLetters?]
    simp only [h]
  refine .of_steady (fun v q => ?_) ?_ (hread o)
  · rw [hread, hread]
    rfl
  · obtain rfl | rfl := ofLetter?_eq_notice h <;> rfl

/-- A letter that takes a value, with what is behind it. -/
theorem splits_settingLetter {cs : List Char} (h : OptionName.ofLetter? c = some (.setting setting))
    (hr : ofLetters? o (c :: cs) = some reading) :
    Splits o [String.ofList ('-' :: c :: cs)] reading := by
  have hc := ne_hyphen_of_ofLetter? h
  refine .of_steady (fun v q => ?_) ?_ ((ofArgument?_letters o hc cs).trans hr)
  · rw [ofArgument?_letters _ hc, ofArgument?_letters _ hc]
    unfold ofLetters?
    simp only [h]
    split
    · rfl
    · rw [Options.set?_withVolume, Option.map_map, Option.map_map]
      rfl
    · rw [Options.set?_withVolume, Option.map_map, Option.map_map]
      rfl
  · refine isVolume_letters hc ?_ ?_ cs <;>
      obtain rfl | rfl := ofLetter?_eq_setting h <;> decide

theorem splits_apart {cs : List Char} (h : ofLetters? o cs = some reading) :
    Splits o (Arguments.apart cs) reading := by
  fun_induction ofLetters? o cs with
  | case1 o =>
    cases h
    exact .nil o
  | case2 => cases h
  | case3 o c cs notice hc =>
    cases h
    have hother : ¬ (c = 'f' ∨ c = 'i') := by
      obtain rfl | rfl := ofLetter?_eq_notice hc <;> decide
    rw [Arguments.apart, if_neg hother]
    exact (splits_noticeLetter hc).append_tell _
  | case4 o c cs flag hc ih =>
    obtain ⟨o₁, hr, h⟩ := Option.bind_eq_some_iff.mp h
    have hother : ¬ (c = 'f' ∨ c = 'i') := by
      obtain ⟨rfl, -⟩ | ⟨rfl, -⟩ | ⟨rfl, -⟩ | ⟨rfl, -⟩ | ⟨rfl, -⟩ := ofLetter?_eq_flag hc <;> decide
    rw [Arguments.apart, if_neg hother]
    exact (splits_flagLetter hc hr).append (ih o₁ h)
  | case5 o c setting hc | case6 o c setting hc | case7 o c setting hc =>
    rw [Arguments.apart, if_pos (ofLetter?_eq_setting hc)]
    exact splits_settingLetter hc (by simpa [ofLetters?, hc] using h)

theorem ofWord?_eq_flag {word : List Char} (h : OptionName.ofWord? word = some (.flag flag)) :
    String.ofList word = flag.name := by
  unfold OptionName.ofWord? at h
  split at h <;> cases h <;> assumption

/-- A word that is not a flag for the volume is read in the same way at each volume. -/
theorem ofWord?_withVolume {cs : List Char} (o : Options) (hv : String.ofList cs ≠ "verbose")
    (hq : String.ofList cs ≠ "quiet") (v : Nat) (q : Bool) :
    ofWord? (o.withVolume v q) cs = (ofWord? o cs).map (withVolume v q) := by
  have hcs := List.takeWhile_append_dropWhile (p := fun c => c ≠ '=') (l := cs)
  rw [ofWord?, ofWord?, List.span_eq_takeWhile_dropWhile]
  generalize cs.takeWhile (fun c => c ≠ '=') = word at *
  generalize cs.dropWhile (fun c => c ≠ '=') = value at *
  dsimp only
  cases hname : OptionName.ofWord? word with
  | none => rfl
  | some name =>
    cases name with
    | notice notice => cases value <;> rfl
    | setting setting =>
      cases value with
      | nil => rfl
      | cons _ value =>
        simp only [Options.set?_withVolume, Option.map_map]
        rfl
    | flag flag =>
      cases value with
      | cons => rfl
      | nil =>
        rw [List.append_nil] at hcs
        subst hcs
        have hflag := ofWord?_eq_flag hname
        have hverbose : flag ≠ .verbose := fun he => hv (by rw [hflag, he, Flag.name])
        have hquiet : flag ≠ .quiet := fun he => hq (by rw [hflag, he, Flag.name])
        simp only [Options.raise?_withVolume o hverbose hquiet, Option.map_map]
        rfl

theorem splits_flagWord (flag : Flag) (h : ofArgument? o ("--" ++ flag.name) = some reading) :
    Splits o ["--" ++ flag.name] reading := by
  have hread (o : Options) : ofArgument? o ("--" ++ flag.name) = (o.raise? flag).map .continue :=
    ofArgument?_argument o (.raise flag)
  rw [hread] at h
  obtain ⟨o₁, ho, rfl⟩ := Option.map_eq_some_iff.mp h
  refine .of_raise hread ?_ ?_ ho <;> cases flag <;> rfl

theorem splits_word {word : List Char} (harg : arg.toList = '-' :: '-' :: word)
    (h : ofArgument? o arg = some reading) : Splits o [arg] reading := by
  by_cases hverbose : arg = "--verbose"
  · subst hverbose
    exact splits_flagWord .verbose h
  by_cases hquiet : arg = "--quiet"
  · subst hquiet
    exact splits_flagWord .quiet h
  have hword {name : String} (hne : arg ≠ "--" ++ name) : String.ofList word ≠ name := by
    rintro rfl
    exact hne (String.toList_inj.mp (by simp [harg]))
  have hletter {c : Char} (hc : c ≠ '-') : arg ≠ String.ofList ['-', c] := by
    rintro rfl
    rw [String.toList_ofList] at harg
    exact hc (List.cons.inj (List.cons.inj harg).2).1
  refine .of_steady (fun v q => ?_) ?_ h
  · rw [ofArgument?, ofArgument?, harg]
    exact ofWord?_withVolume o (hword hverbose) (hword hquiet) v q
  · have hv : arg ≠ "-v" := hletter (c := 'v') (by decide)
    have hq : arg ≠ "-q" := hletter (c := 'q') (by decide)
    simp [Arguments.isVolume, Arguments.isVerbose, Arguments.isQuiet, hv, hq, hverbose, hquiet]

/-- An argument that does not look like an option is an output. -/
theorem splits_output (harg : isDetachedValue arg) (h : ofArgument? o arg = some reading) :
    Splits o [arg] reading := by
  have hread (o : Options) : ofArgument? o arg = (o.addOutput? arg).map .continue := by
    rw [ofArgument?]
    split
    · next he => exact absurd he (isDetachedValue_iff.mp harg _ _)
    · next he => exact absurd he (isDetachedValue_iff.mp harg _ _)
    · rfl
  refine .of_steady (fun v q => ?_) (Arguments.isVolume_of_isDetachedValue harg) h
  rw [hread, hread, Options.addOutput?_withVolume, Option.map_map, Option.map_map]
  rfl

theorem splits_separated {arg : String} (h : ofArgument? o arg = some reading) :
    Splits o (Arguments.separated arg) reading := by
  rw [Arguments.separated]
  split
  · next c cs harg =>
    split
    · next hc => exact splits_word (hc ▸ harg) h
    · next hc =>
      rw [← String.ofList_toList (s := arg), harg, ofArgument?_letters o hc] at h
      exact splits_apart h
  · next harg => exact splits_output (isDetachedValue_iff.mpr harg) h

end

end Reading

namespace Invocation

variable {o o₁ : Options} {args first rest : List String} {invocation : Invocation}

/-- The arguments lead from the options to the invocation, also without the flags for the volume at
each volume, and the flags make up the volume of the invocation. -/
structure Splits (o : Options) (args : List String) (invocation : Invocation) : Prop where
  unvoiced_eq : ∀ v q, ofArguments? (o.withVolume v q) (Arguments.unvoiced args) =
    some (invocation.withVolume v q)
  volume_eq : invocation = invocation.withVolume
    (o.verbosity + (Arguments.spelledOut args).countP Arguments.isVerbose)
    (o.quiet || (Arguments.spelledOut args).any Arguments.isQuiet)

theorem Splits.of_continue (h : Reading.Splits o first (.continue o₁))
    (hargs : Arguments.spelledOut args = first ++ Arguments.spelledOut rest)
    (hrest : Splits o₁ rest invocation) : Splits o args invocation where
  unvoiced_eq v q := by
    rw [Arguments.unvoiced, hargs, List.filter_append, h.resume_eq]
    exact hrest.unvoiced_eq v q
  volume_eq := by
    rw [hargs, List.countP_append, List.any_append, ← Nat.add_assoc, ← Bool.or_assoc,
      ← h.verbosity_eq, ← h.quiet_eq]
    exact hrest.volume_eq

theorem isDetachedValue_of_foldlM (h : args.foldlM Options.addOutput? o = some o₁) :
    ∀ arg ∈ args, isDetachedValue arg := by
  induction args generalizing o with
  | nil => exact List.forall_mem_nil _
  | cons arg args ih =>
    obtain ⟨o', ho, h⟩ := Option.bind_eq_some_iff.mp h
    obtain ⟨output, hword, -⟩ := Option.map_eq_some_iff.mp ho
    exact List.forall_mem_cons.mpr ⟨isDetachedValue_of_output hword, ih h⟩

/-- Behind two hyphens there are outputs only. -/
theorem splits_of_outputs (h : args.foldlM Options.addOutput? o = some o₁) (hc : o₁.isComplete) :
    Splits o ("--" :: args) (.run o₁) := by
  have hdetached := isDetachedValue_of_foldlM h
  have hspelled : Arguments.spelledOut ("--" :: args) = "--" :: args := by
    have hargs : Arguments.spelledOut args = args.flatMap fun arg => [arg] :=
      List.flatMap_congr fun arg ha => Arguments.separated_of_isDetachedValue (hdetached arg ha)
    rw [List.flatMap_singleton'] at hargs
    exact congrArg ("--" :: ·) hargs
  have hsilent : Arguments.Silent ("--" :: args) :=
    List.forall_mem_cons.mpr
      ⟨rfl, fun arg ha => Arguments.isVolume_of_isDetachedValue (hdetached arg ha)⟩
  constructor
  · intro v q
    rw [Arguments.unvoiced, hspelled, hsilent.filter_eq, ofArguments?,
      Options.foldlM_addOutput?_withVolume, h]
    exact if_pos hc
  · rw [hspelled, hsilent.countP_eq, hsilent.any_eq, Nat.add_zero, Bool.or_false]
    exact congrArg run (Options.eq_of_steady (args.foldlM Options.addOutput? ·)
      Options.withVolume (Options.foldlM_addOutput?_withVolume o args) h)

theorem splits_of_ofArguments? (h : ofArguments? o args = some invocation) :
    Splits o args invocation := by
  fun_induction ofArguments? o args with
  | case1 o hc =>
    cases h
    exact ⟨fun v q => if_pos hc, by simp [Arguments.spelledOut, withVolume, Options.withVolume]⟩
  | case3 o words =>
    obtain ⟨o₁, hw, h⟩ := Option.bind_eq_some_iff.mp h
    split at h
    · next hc =>
      cases h
      exact splits_of_outputs hw hc
    · cases h
  | case5 o arg rest hne notice hr =>
    cases h
    have hsplit := (Reading.splits_separated hr).append_tell (Arguments.spelledOut rest)
    refine ⟨fun v q => ?_, rfl⟩
    rw [Arguments.unvoiced, ← List.append_nil (List.filter _ _)]
    exact hsplit.resume_eq v q []
  | case6 o arg hne o₁ rest hr ih =>
    exact .of_continue (Reading.splits_separated hr) rfl (ih h)
  | case9 o arg hne setting o₁ value rest hr hd o₂ hs ih =>
    refine .of_continue ((Reading.splits_separated hr).append_value hd hs) ?_ (ih h)
    rw [Arguments.spelledOut, List.flatMap_cons, List.flatMap_cons,
      Arguments.separated_of_isDetachedValue hd, ← List.append_assoc]
    rfl
  | case2 | case4 | case7 | case8 | case10 => cases h

end Invocation

end Predictive
