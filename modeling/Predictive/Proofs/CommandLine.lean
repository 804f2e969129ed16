import Predictive.Command.Session

namespace Predictive

/-- One change of the options. -/
inductive Request
  | print (output : Output)
  | set (setting : Setting) (value : String)
  | raise (flag : Flag)

def Output.word : Output → String
  | .productions => "prod"
  | .sets => "nff"
  | .table => "ll1"
  | .grid => "grid"
  | .validation => "validate"

def Flag.name : Flag → String
  | .trace => "trace"
  | .latex => "latex"
  | .json => "json"
  | .verbose => "verbose"
  | .quiet => "quiet"

def Setting.name : Setting → String
  | .file => "file"
  | .input => "input"

namespace Request

def change? (o : Options) : Request → Option Options
  | print output => some { o with outputs := o.outputs ++ [output] }
  | set setting value => o.set? value setting
  | raise flag => o.raise? flag

/-- The argument that makes this request and no other. -/
def argument : Request → String
  | print output => output.word
  | set setting value => "--" ++ setting.name ++ "=" ++ value
  | raise flag => "--" ++ flag.name

end Request

variable {o o' o₁ o₂ o₃ : Options} {r : Request} {rs rs' : List Request}

namespace Options

/-- The requests lead from the first options to the second. -/
def Leads (o : Options) (requests : List Request) (o' : Options) : Prop :=
  requests.foldlM Request.change? o = some o'

/-- A row of requests that leads to these options from the empty ones. -/
def requests (o : Options) : List Request :=
  o.outputs.map .print ++ (o.file.toList.map (.set .file) ++ (o.inputs.map (.set .input) ++
    ((if o.trace then [.raise .trace] else []) ++ ((if o.latex then [.raise .latex] else []) ++
      ((if o.json then [.raise .json] else []) ++ (List.replicate o.verbosity (.raise .verbose) ++
        if o.quiet then [.raise .quiet] else []))))))

/-- Some command line is a run with these options. -/
def IsAsked (o : Options) : Prop := ∃ args, Invocation.ofCommandLine? args = some (.run o)

theorem leads_nil (o : Options) : o.Leads [] o := rfl

theorem leads_singleton (h : r.change? o = some o') : o.Leads [r] o' := by
  simp [Leads, h]

theorem Leads.append (h : o₁.Leads rs o₂) (h' : o₂.Leads rs' o₃) : o₁.Leads (rs ++ rs') o₃ := by
  rw [Leads] at h
  simpa [Leads, List.foldlM_append, h] using h'

theorem Leads.cons (h : r.change? o₁ = some o₂) (h' : o₂.Leads rs o₃) : o₁.Leads (r :: rs) o₃ :=
  (leads_singleton h).append h'

theorem leads_outputs (o : Options) (outputs : List Output) :
    o.Leads (outputs.map .print) { o with outputs := o.outputs ++ outputs } := by
  induction outputs generalizing o with
  | nil => simp [leads_nil]
  | cons output outputs ih =>
    have h := ih { o with outputs := o.outputs ++ [output] }
    rw [List.append_assoc] at h
    exact .cons rfl h

theorem leads_inputs (o : Options) (inputs : List String) :
    o.Leads (inputs.map (.set .input)) { o with inputs := o.inputs ++ inputs } := by
  induction inputs generalizing o with
  | nil => simp [leads_nil]
  | cons line inputs ih =>
    have h := ih { o with inputs := o.inputs ++ [line] }
    rw [List.append_assoc] at h
    exact .cons rfl h

theorem leads_verbose (o : Options) (n : Nat) :
    o.Leads (List.replicate n (.raise .verbose)) { o with verbosity := o.verbosity + n } := by
  induction n generalizing o with
  | zero => exact leads_nil o
  | succ n ih =>
    have h := ih { o with verbosity := o.verbosity + 1 }
    rw [Nat.add_assoc, Nat.add_comm 1 n] at h
    exact .cons rfl h

theorem leads_file (ho : o.file = none) {path : String} (h : path ≠ "") :
    o.Leads [.set .file path] { o with file := some path } :=
  leads_singleton (by simp [Request.change?, set?, ho, h])

theorem leads_requests (h : o.file ≠ some "") : Options.empty.Leads o.requests o := by
  obtain ⟨outputs, file, inputs, trace, latex, json, verbosity, quiet⟩ := o
  have houtputs : Leads .empty _ ⟨outputs, none, [], false, false, false, 0, false⟩ :=
    leads_outputs .empty outputs
  have hfile : Leads ⟨outputs, none, [], false, false, false, 0, false⟩
      (file.toList.map (.set .file)) ⟨outputs, file, [], false, false, false, 0, false⟩ := by
    cases file with
    | none => rfl
    | some path => exact leads_file rfl fun he => h (congrArg some he)
  have hinputs : Leads ⟨outputs, file, [], false, false, false, 0, false⟩ _
      ⟨outputs, file, inputs, false, false, false, 0, false⟩ := leads_inputs _ inputs
  have htrace : Leads ⟨outputs, file, inputs, false, false, false, 0, false⟩
      (if trace then [.raise .trace] else [])
      ⟨outputs, file, inputs, trace, false, false, 0, false⟩ := by cases trace <;> rfl
  have hlatex : Leads ⟨outputs, file, inputs, trace, false, false, 0, false⟩
      (if latex then [.raise .latex] else [])
      ⟨outputs, file, inputs, trace, latex, false, 0, false⟩ := by cases latex <;> rfl
  have hjson : Leads ⟨outputs, file, inputs, trace, latex, false, 0, false⟩
      (if json then [.raise .json] else [])
      ⟨outputs, file, inputs, trace, latex, json, 0, false⟩ := by cases json <;> rfl
  have hverbose : Leads ⟨outputs, file, inputs, trace, latex, json, 0, false⟩
      (List.replicate verbosity (.raise .verbose))
      ⟨outputs, file, inputs, trace, latex, json, verbosity, false⟩ := by
    simpa using leads_verbose ⟨outputs, file, inputs, trace, latex, json, 0, false⟩ verbosity
  have hquiet : Leads ⟨outputs, file, inputs, trace, latex, json, verbosity, false⟩
      (if quiet then [.raise .quiet] else [])
      ⟨outputs, file, inputs, trace, latex, json, verbosity, quiet⟩ := by cases quiet <;> rfl
  exact houtputs.append (hfile.append (hinputs.append (htrace.append (hlatex.append
    (hjson.append (hverbose.append hquiet))))))

end Options

theorem Reading.ofWord?_setting (o : Options) (setting : Setting) (value : String) :
    ofWord? o (setting.name.toList ++ '=' :: value.toList) =
      (o.set? value setting).map .continue := by
  have hspan : (setting.name.toList ++ '=' :: value.toList).span (· ≠ '=') =
      (setting.name.toList, '=' :: value.toList) := by
    cases setting <;> rfl
  have hname : OptionName.ofWord? setting.name.toList = some (.setting setting) := by
    cases setting <;> rfl
  rw [ofWord?, hspan]
  simp only [hname, String.ofList_toList]

theorem Reading.ofArgument?_argument (o : Options) (r : Request) :
    ofArgument? o r.argument = (r.change? o).map .continue := by
  cases r with
  | print output => cases output <;> rfl
  | raise flag => cases flag <;> rfl
  | set setting value =>
    have hl : (Request.set setting value).argument.toList =
        '-' :: '-' :: (setting.name.toList ++ '=' :: value.toList) := by
      simp [Request.argument]
    rw [ofArgument?, hl]
    exact ofWord?_setting o setting value

/-- How the arguments behind the one that was read are read. -/
def Reading.resume : Reading → List String → Option Invocation
  | tell notice, _ => some (.tell notice)
  | .continue o, args => Invocation.ofArguments? o args
  | await _ _, [] => none
  | await setting o, value :: args =>
    if isDetachedValue value then (o.set? value setting).bind (Invocation.ofArguments? · args)
    else none

namespace Invocation

theorem ofArguments?_cons {arg : String} {reading : Reading}
    (h : Reading.ofArgument? o arg = some reading) (args : List String) :
    ofArguments? o (arg :: args) = reading.resume args := by
  rw [ofArguments?.eq_def]
  split
  · contradiction
  · next he =>
    cases he
    cases h
  · next he =>
    cases he
    simp only [h]
    cases reading with
    | tell | «continue» => rfl
    | await setting o₁ =>
      cases args with
      | nil => rfl
      | cons value args =>
        simp only [Reading.resume]
        split
        · cases o₁.set? value setting <;> rfl
        · rfl

theorem ofArguments?_continue {arg : String} {args : List String}
    (h : Reading.ofArgument? o arg = some (.continue o')) :
    ofArguments? o (arg :: args) = ofArguments? o' args :=
  ofArguments?_cons h args

theorem ofArguments?_map_argument (h : o.Leads rs o') (hc : o'.isComplete) :
    ofArguments? o (rs.map Request.argument) = some (.run o') := by
  induction rs generalizing o with
  | nil =>
    obtain rfl : o = o' := Option.some.inj h
    exact if_pos hc
  | cons r rs ih =>
    obtain ⟨o₁, hr, h⟩ := Option.bind_eq_some_iff.mp h
    have hread : Reading.ofArgument? o r.argument = some (.continue o₁) := by
      rw [Reading.ofArgument?_argument, hr]
      rfl
    rw [List.map_cons, ofArguments?_continue hread]
    exact ih h

end Invocation

namespace Options

/-- Some requests lead from the first options to the second. -/
def Reaches (o o' : Options) : Prop := ∃ rs, o.Leads rs o'

theorem Reaches.refl (o : Options) : o.Reaches o := ⟨[], leads_nil o⟩

theorem Reaches.trans : o₁.Reaches o₂ → o₂.Reaches o₃ → o₁.Reaches o₃
  | ⟨rs, h⟩, ⟨rs', h'⟩ => ⟨rs ++ rs', h.append h'⟩

theorem reaches_of_change? (h : r.change? o = some o') : o.Reaches o' := ⟨[r], leads_singleton h⟩

theorem reaches_of_raise? {flag : Flag} (h : o.raise? flag = some o') : o.Reaches o' :=
  reaches_of_change? (r := .raise flag) h

theorem reaches_of_set? {setting : Setting} {value : String} (h : o.set? value setting = some o') :
    o.Reaches o' :=
  reaches_of_change? (r := .set setting value) h

theorem reaches_of_addOutput? {word : String} (h : o.addOutput? word = some o') :
    o.Reaches o' := by
  obtain ⟨output, -, rfl⟩ := Option.map_eq_some_iff.mp h
  exact reaches_of_change? (r := .print output) rfl

theorem reaches_of_foldlM_addOutput? {words : List String}
    (h : words.foldlM addOutput? o = some o') : o.Reaches o' := by
  induction words generalizing o with
  | nil =>
    obtain rfl : o = o' := Option.some.inj h
    exact .refl o
  | cons word words ih =>
    obtain ⟨o₁, hw, h⟩ := Option.bind_eq_some_iff.mp h
    exact (reaches_of_addOutput? hw).trans (ih h)

end Options

namespace Reading

/-- The options that are left to go on with are reached from those before. -/
def Follows (o : Options) : Reading → Prop
  | tell _ => True
  | await _ o' => o.Reaches o'
  | .continue o' => o.Reaches o'

variable {reading : Reading} {changed : Option Options}

theorem Follows.of_reaches (ho : o₁.Reaches o₂) (h : reading.Follows o₂) : reading.Follows o₁ := by
  cases reading with
  | tell => trivial
  | await => exact ho.trans h
  | «continue» => exact ho.trans h

theorem follows_of_map (ho : ∀ o', changed = some o' → o.Reaches o')
    (h : changed.map .continue = some reading) : reading.Follows o := by
  obtain ⟨o', ho', rfl⟩ := Option.map_eq_some_iff.mp h
  exact ho o' ho'

theorem follows_of_ofLetters? {cs : List Char} (h : ofLetters? o cs = some reading) :
    reading.Follows o := by
  fun_induction ofLetters? o cs with
  | case1 o =>
    cases h
    exact .refl o
  | case2 => cases h
  | case3 =>
    cases h
    trivial
  | case4 o c cs flag _ ih =>
    obtain ⟨o₁, hr, h⟩ := Option.bind_eq_some_iff.mp h
    exact (ih o₁ h).of_reaches (Options.reaches_of_raise? hr)
  | case5 o =>
    cases h
    exact .refl o
  | case6 => exact follows_of_map (fun _ => Options.reaches_of_set?) h
  | case7 => exact follows_of_map (fun _ => Options.reaches_of_set?) h

theorem follows_of_ofWord? {cs : List Char} (h : ofWord? o cs = some reading) :
    reading.Follows o := by
  simp only [ofWord?] at h
  split at h
  · cases h
    trivial
  · exact follows_of_map (fun _ => Options.reaches_of_raise?) h
  · cases h
    exact .refl o
  · exact follows_of_map (fun _ => Options.reaches_of_set?) h
  · cases h

theorem follows_of_ofArgument? {arg : String} (h : ofArgument? o arg = some reading) :
    reading.Follows o := by
  rw [ofArgument?] at h
  split at h
  · exact follows_of_ofWord? h
  · exact follows_of_ofLetters? h
  · exact follows_of_map (fun _ => Options.reaches_of_addOutput?) h

end Reading

/-- A run comes only from options that are complete, reached by requests. -/
theorem Invocation.reaches_of_ofArguments? {args : List String}
    (h : ofArguments? o args = some (.run o')) : o.Reaches o' ∧ o'.isComplete := by
  fun_induction ofArguments? o args with
  | case1 o hc =>
    cases h
    exact ⟨.refl _, hc⟩
  | case3 o words =>
    obtain ⟨o₁, hw, h⟩ := Option.bind_eq_some_iff.mp h
    split at h
    · next hc =>
      cases h
      exact ⟨Options.reaches_of_foldlM_addOutput? hw, hc⟩
    · cases h
  | case6 o arg _ o₁ rest hr ih =>
    obtain ⟨hreach, hc⟩ := ih h
    exact ⟨.trans (Reading.follows_of_ofArgument? hr) hreach, hc⟩
  | case9 o arg _ setting o₁ value rest hr _ o₂ hs ih =>
    obtain ⟨hreach, hc⟩ := ih h
    have hset := Options.reaches_of_set? hs
    exact ⟨.trans (Reading.follows_of_ofArgument? hr) (hset.trans hreach), hc⟩
  | case2 | case4 | case5 | case7 | case8 | case10 => cases h

namespace Options

theorem file_of_raise? {flag : Flag} (h : o.raise? flag = some o') : o'.file = o.file := by
  cases flag with
  | verbose =>
    cases h
    rfl
  | trace | latex | json | quiet =>
    obtain ⟨-, h⟩ := Option.ite_none_left_eq_some.mp h
    cases h
    rfl

theorem file_ne_of_set? {setting : Setting} {value : String} (h : o.set? value setting = some o')
    (ho : o.file ≠ some "") : o'.file ≠ some "" := by
  cases setting with
  | file =>
    obtain ⟨hv, h⟩ := Option.ite_none_left_eq_some.mp h
    cases h
    simp_all
  | input =>
    cases h
    exact ho

theorem file_ne_of_change? (h : r.change? o = some o') (ho : o.file ≠ some "") :
    o'.file ≠ some "" := by
  cases r with
  | print output =>
    cases h
    exact ho
  | raise flag => rwa [file_of_raise? h]
  | set setting value => exact file_ne_of_set? h ho

theorem file_ne_of_reaches (h : o.Reaches o') (ho : o.file ≠ some "") : o'.file ≠ some "" := by
  obtain ⟨rs, h⟩ := h
  induction rs generalizing o with
  | nil =>
    obtain rfl : o = o' := Option.some.inj h
    exact ho
  | cons r rs ih =>
    obtain ⟨o₁, hr, h⟩ := Option.bind_eq_some_iff.mp h
    exact ih (file_ne_of_change? hr ho) h

/-- A command line can ask for all options that are complete and name no file by the empty name. -/
theorem isAsked_iff : o.IsAsked ↔ o.isComplete ∧ o.file ≠ some "" := by
  constructor
  · rintro ⟨args, h⟩
    obtain ⟨hreach, hc⟩ := Invocation.reaches_of_ofArguments? h
    exact ⟨hc, file_ne_of_reaches hreach (by simp [Options.empty])⟩
  · rintro ⟨hc, hf⟩
    exact ⟨_, Invocation.ofArguments?_map_argument (leads_requests hf) hc⟩

end Options

end Predictive
