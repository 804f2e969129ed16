import Predictive.Command.Directory
import Predictive.Proofs.CommandLine
import Predictive.Proofs.Printing
import Predictive.Proofs.Reading

namespace Predictive

theorem decodeText_eq_ok_iff {bytes : ByteArray} {text : String} :
    decodeText bytes = .ok text ↔ bytes = text.toUTF8 := by
  rw [decodeText, String.fromUTF8?]
  by_cases hv : bytes.IsValidUTF8
  · simp only [dif_pos hv, Except.ok.injEq]
    exact String.toByteArray_inj.symm
  · rw [dif_neg hv]
    simp only [reduceCtorEq, false_iff]
    rintro rfl
    exact hv text.isValidUTF8

theorem mapError_eq_ok_iff {ε ε' α : Type} {f : ε → ε'} {x : Except ε α} {a : α} :
    x.mapError f = .ok a ↔ x = .ok a := by
  cases x <;> simp [Except.mapError]

theorem textLines_append_newline {texts : List String} (h : texts ≠ []) :
    textLines texts ++ "\n" = String.join (texts.map (· ++ "\n")) := by
  induction texts with
  | nil => contradiction
  | cons text texts ih =>
    cases texts with
    | nil => simp [textLines]
    | cons text' texts =>
      rw [List.map_cons, String.join_cons, ← ih (List.cons_ne_nil _ _), textLines,
        String.intercalate_cons_cons]
      simp [textLines, String.append_assoc]

/-- What can be read, before it is taken for text. -/
structure ByteSources where
  standardInput : Except ReadFault ByteArray
  file : String → Except ReadFault ByteArray

def ByteSources.decoded (b : ByteSources) : Sources where
  standardInput := b.standardInput >>= decodeText
  file path := b.file path >>= decodeText

namespace Directory

def readBytes (d : Directory) (path : String) : Except ReadFault ByteArray :=
  match d.resolve path with
  | .error fault => .error fault
  | .ok (.file bytes) => .ok bytes
  | .ok _ => .error .isDirectory

def byteSources (d : Directory) (standardInput : ByteArray) : ByteSources :=
  ⟨.ok standardInput, d.readBytes⟩

theorem decoded_byteSources (d : Directory) (standardInput : ByteArray) :
    (d.byteSources standardInput).decoded = d.sources standardInput := by
  have hread (path : String) : d.readBytes path >>= decodeText = d.read path := by
    rw [readBytes, read]
    cases d.resolve path with
    | error => rfl
    | ok place => cases place <;> rfl
  exact congrArg (Sources.mk (decodeText standardInput)) (funext hread)

end Directory

/-- What a command line answers, if it can be understood. -/
def answer? (b : ByteSources) (args : List String) : Option Response :=
  (Invocation.ofCommandLine? args).map (Invocation.response b.decoded)

namespace Options

variable {o : Options} {b : ByteSources} {g : Grammar} {text : String}

def answer (o : Options) (b : ByteSources) : Response := Invocation.response b.decoded (.run o)

/-- The bytes of the file, or of the standard input if there is no file. -/
def bytes (o : Options) (b : ByteSources) : Except ReadFault ByteArray :=
  match o.file with
  | some path => b.file path
  | none => b.standardInput

/-- The source is the UTF-8 of a text of this grammar. -/
def Finds (o : Options) (b : ByteSources) (g : Grammar) : Prop :=
  ∃ text, o.bytes b = .ok text.toUTF8 ∧ Grammar.ofText text = .ok g

/-- The same run with one output. -/
def only (o : Options) (output : Output) : Options := { o with outputs := [output] }

/-- The same run with other inputs. -/
def withInputs (o : Options) (inputs : List String) : Options := { o with inputs := inputs }

theorem source_eq_ok_iff : o.source b.decoded = .ok text ↔ o.bytes b = .ok text.toUTF8 := by
  have hbytes (x : Except ReadFault ByteArray) :
      x >>= decodeText = .ok text ↔ x = .ok text.toUTF8 := by
    simp only [bind_eq_ok_iff, decodeText_eq_ok_iff, exists_eq_right]
  rw [source, bytes]
  cases o.file with
  | none => exact mapError_eq_ok_iff.trans (hbytes b.standardInput)
  | some path => exact mapError_eq_ok_iff.trans (hbytes (b.file path))

theorem finds_iff : o.Finds b g ↔ o.Obtains b.decoded g := by
  simp only [Finds, Obtains, source_eq_ok_iff]

theorem answer_of_finds (hg : o.Finds b g) (hs : o.Supplied) :
    ∃ log, o.answer b = ⟨0, o.printed g, log⟩ := by
  obtain ⟨events, hsession⟩ := session_of_supplied (finds_iff.mp hg) hs
  rw [answer, Invocation.response, hsession]
  exact ⟨_, rfl⟩

theorem answer_of_not (h : ¬ ((∃ g, o.Finds b g) ∧ o.Supplied)) :
    ∃ log, o.answer b = ⟨1, "", log⟩ := by
  simp only [finds_iff] at h
  obtain ⟨events, failure, hsession⟩ := session_of_not h
  rw [answer, Invocation.response, hsession]
  exact ⟨_, rfl⟩

theorem code_eq_zero_iff : (o.answer b).code = 0 ↔ (∃ g, o.Finds b g) ∧ o.Supplied := by
  by_cases h : (∃ g, o.Finds b g) ∧ o.Supplied
  · obtain ⟨⟨g, hg⟩, hs⟩ := h
    obtain ⟨log, ha⟩ := answer_of_finds hg hs
    simp [ha, hs, Exists.intro g hg]
  · obtain ⟨log, ha⟩ := answer_of_not h
    simp [ha, h]

theorem code_eq_zero_or_one (o : Options) (b : ByteSources) :
    (o.answer b).code = 0 ∨ (o.answer b).code = 1 := by
  by_cases h : (∃ g, o.Finds b g) ∧ o.Supplied
  · exact .inl (code_eq_zero_iff.mpr h)
  · obtain ⟨log, ha⟩ := answer_of_not h
    exact .inr (by rw [ha])

theorem output_of_code_eq_one (h : (o.answer b).code = 1) : (o.answer b).output = "" := by
  have hn : ¬ ((∃ g, o.Finds b g) ∧ o.Supplied) := by
    rw [← code_eq_zero_iff, h]
    exact Nat.one_ne_zero
  obtain ⟨log, ha⟩ := answer_of_not hn
  rw [ha]

theorem Supplied.only (h : o.Supplied) {output : Output} (ho : output ∈ o.outputs) :
    (o.only output).Supplied := by
  intro hv
  obtain rfl := List.mem_singleton.mp hv
  exact h ho

theorem printed_of_outputs {output : Output} (h : o.outputs = [output]) :
    o.printed g = o.outputText g.table output ++ "\n" := by
  simp [printed, h]

theorem answer_only_of_finds (hg : o.Finds b g) {output : Output} (hs : (o.only output).Supplied) :
    ∃ log, (o.only output).answer b = ⟨0, o.outputText g.table output ++ "\n", log⟩ := by
  have hprinted : (o.only output).printed g = o.outputText g.table output ++ "\n" :=
    printed_of_outputs rfl
  rw [← hprinted]
  exact answer_of_finds hg hs

theorem output_eq_join_only (h : (o.answer b).code = 0) : (o.answer b).output =
    String.join (o.outputs.map fun output => ((o.only output).answer b).output) := by
  obtain ⟨⟨g, hg⟩, hs⟩ := code_eq_zero_iff.mp h
  obtain ⟨log, ha⟩ := answer_of_finds hg hs
  have houtputs : ∀ output ∈ o.outputs,
      ((o.only output).answer b).output = o.outputText g.table output ++ "\n" := by
    intro output ho
    obtain ⟨log', ho⟩ := answer_only_of_finds hg (hs.only ho)
    rw [ho]
  rw [ha, printed, List.map_congr_left houtputs]

theorem outputText_validation_append (T : Table g) (h : o.inputs ≠ []) :
    o.outputText T .validation ++ "\n" = String.join (o.inputs.map fun line =>
      (o.withInputs [line]).outputText T .validation ++ "\n") := by
  have hne : (o.inputs.map fun line => (T.validationReport line o.trace).text o.format) ≠ [] := by
    simpa using h
  rw [outputText, textLines_append_newline hne, List.map_map]
  rfl

theorem output_validation_eq_join (h : (o.answer b).code = 0) (hv : .validation ∈ o.outputs) :
    ((o.only .validation).answer b).output = String.join (o.inputs.map fun line =>
      (((o.only .validation).withInputs [line]).answer b).output) := by
  obtain ⟨⟨g, hg⟩, hs⟩ := code_eq_zero_iff.mp h
  obtain ⟨log, ha⟩ := answer_only_of_finds hg (hs.only hv)
  have hinputs : ∀ line ∈ o.inputs, (((o.only .validation).withInputs [line]).answer b).output =
      (o.withInputs [line]).outputText g.table .validation ++ "\n" := by
    intro line _
    have hsupplied : ((o.withInputs [line]).only .validation).Supplied := fun _ =>
      List.cons_ne_nil _ _
    obtain ⟨log', hl⟩ := answer_only_of_finds (o := o.withInputs [line]) hg hsupplied
    exact congrArg Response.output hl
  rw [ha, outputText_validation_append g.table (hs hv), List.map_congr_left hinputs]

theorem code_only_eq_zero (h : (o.answer b).code = 0) {output : Output} (ho : output ∈ o.outputs) :
    ((o.only output).answer b).code = 0 := by
  obtain ⟨hg, hs⟩ := code_eq_zero_iff.mp h
  exact code_eq_zero_iff.mpr ⟨hg, hs.only ho⟩

/-- The inputs have a part in the exit code only by being there. -/
theorem code_withInputs (h : o.inputs ≠ []) {inputs : List String} (hi : inputs ≠ []) :
    ((o.withInputs inputs).answer b).code = (o.answer b).code := by
  have hs : (o.withInputs inputs).Supplied ↔ o.Supplied := ⟨fun _ _ => h, fun _ _ => hi⟩
  have hzero : ((o.withInputs inputs).answer b).code = 0 ↔ (o.answer b).code = 0 := by
    rw [code_eq_zero_iff, code_eq_zero_iff, hs]
    rfl
  have h1 := code_eq_zero_or_one o b
  have h2 := code_eq_zero_or_one (o.withInputs inputs) b
  omega

theorem IsAsked.only (h : o.IsAsked) (output : Output) : (o.only output).IsAsked := by
  obtain ⟨hc, hf⟩ := isAsked_iff.mp h
  rw [isComplete, Bool.and_eq_true] at hc
  exact isAsked_iff.mpr ⟨hc.2, hf⟩

theorem IsAsked.withInputs (h : o.IsAsked) (inputs : List String) :
    (o.withInputs inputs).IsAsked := by
  rw [isAsked_iff] at h ⊢
  exact h

end Options

/-- For any arguments that are a run, the exit code is 0 if the source is UTF-8 of a grammar and
there is an input if there is a validation, and else it is 1 and nothing is printed. What is printed
is what runs with each single output print, in the order of the outputs, and a validation is what
runs with each single input print. No input that is there changes the exit code, be it accepted or
rejected. -/
theorem answer_all_or_nothing (b : ByteSources) {args : List String} {o : Options}
    (h : Invocation.ofCommandLine? args = some (.run o)) :
    answer? b args = some (o.answer b) ∧
    ((o.answer b).code = 0 ∨ (o.answer b).code = 1) ∧
    ((o.answer b).code = 0 ↔
      (∃ g, o.Finds b g) ∧ (.validation ∈ o.outputs → o.inputs ≠ [])) ∧
    ((o.answer b).code = 1 → (o.answer b).output = "") ∧
    ((o.answer b).code = 0 →
      (∀ output ∈ o.outputs, (o.only output).IsAsked ∧ ((o.only output).answer b).code = 0) ∧
      (o.answer b).output =
        String.join (o.outputs.map fun output => ((o.only output).answer b).output)) ∧
    ((o.answer b).code = 0 → .validation ∈ o.outputs →
      (∀ line ∈ o.inputs, ((o.only .validation).withInputs [line]).IsAsked ∧
        (((o.only .validation).withInputs [line]).answer b).code = 0) ∧
      ((o.only .validation).answer b).output = String.join (o.inputs.map fun line =>
        (((o.only .validation).withInputs [line]).answer b).output)) ∧
    ∀ inputs, o.inputs ≠ [] → inputs ≠ [] →
      (o.withInputs inputs).IsAsked ∧
      ((o.withInputs inputs).answer b).code = (o.answer b).code := by
  have hasked : o.IsAsked := ⟨args, h⟩
  refine ⟨by rw [answer?, h]; rfl, o.code_eq_zero_or_one b, Options.code_eq_zero_iff,
    Options.output_of_code_eq_one, fun hc => ⟨?_, Options.output_eq_join_only hc⟩,
    fun hc hv => ⟨?_, Options.output_validation_eq_join hc hv⟩, ?_⟩
  · exact fun output ho => ⟨hasked.only output, Options.code_only_eq_zero hc ho⟩
  · intro line hl
    have hne : o.inputs ≠ [] := List.ne_nil_of_mem hl
    refine ⟨(hasked.only .validation).withInputs [line], ?_⟩
    rw [Options.code_withInputs (o := o.only .validation) hne (List.cons_ne_nil _ _)]
    exact Options.code_only_eq_zero hc hv
  · exact fun inputs hne hi => ⟨hasked.withInputs inputs, Options.code_withInputs hne hi⟩

theorem answer_all_or_nothing_reversed :
    let b := Directory.byteSources ⟨[("g", "S -> a".toUTF8)]⟩ .empty
    let o : Options :=
      ⟨[.validation, .productions], some "g", ["b", "a"], false, false, false, 0, false⟩
    Invocation.ofCommandLine? ["validate", "-fg", "-i", "b", "prod", "-ia"] = some (.run o) ∧
    answer? b ["validate", "-fg", "-i", "b", "prod", "-ia"] = some (o.answer b) ∧
    (o.answer b).code = 0 ∧
    (o.answer b).output = String.join
      [((o.only .validation).answer b).output, ((o.only .productions).answer b).output] ∧
    ((o.only .validation).answer b).output = String.join
      [(((o.only .validation).withInputs ["b"]).answer b).output,
        (((o.only .validation).withInputs ["a"]).answer b).output] := by
  intro b o
  have h : Invocation.ofCommandLine? ["validate", "-fg", "-i", "b", "prod", "-ia"] =
      some (.run o) := rfl
  have hg : ∃ g, o.Finds b g := ⟨_, "S -> a", rfl, rfl⟩
  obtain ⟨ha, -, hcode, -, hall, hsingle, -⟩ := answer_all_or_nothing b h
  have hzero := hcode.mpr ⟨hg, fun _ => List.cons_ne_nil _ _⟩
  exact ⟨h, ha, hzero, (hall hzero).2, (hsingle hzero List.mem_cons_self).2⟩

end Predictive
