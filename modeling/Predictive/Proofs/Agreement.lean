import Predictive.Proofs.Acceptance
import Predictive.Proofs.Answers
import Predictive.Proofs.Documents
import Predictive.Proofs.RoundTrip

namespace Predictive

variable {g : Grammar} {text : String} {e : GrammarError} {o : Options} {b : ByteSources}
  {args : List String}

namespace GrammarError

theorem newline_notMem_reservedToken {left token : String} (hl : IsWord left) (ht : IsWord token) :
    '\n' ∉ (reservedToken left token).message.toList := by
  simp [message, newline_notMem_of_isWord hl, newline_notMem_of_isWord ht]

theorem newline_notMem_of_refused {left : String} {tokens : List String} (hl : IsWord left)
    (h : Rule.Refused left tokens e) : '\n' ∉ e.message.toList := by
  cases h with
  | empty => simp [message, newline_notMem_of_isWord hl]
  | epsilon => simp [message, newline_notMem_of_isWord hl]
  | reserved => exact newline_notMem_reservedToken hl (isWord_singleton (by decide))

/-- The message about a refused text is one line. -/
theorem newline_notMem_message (h : Grammar.ofText text = .error e) :
    '\n' ∉ e.message.toList := by
  have hword {l body : List Char} {left : String} (hr : Line.IsRule l left body) : IsWord left := by
    obtain ⟨_, _, _, _, hs⟩ := hr
    exact hs.isWord left List.mem_cons_self
  cases Grammar.refuses_of_ofText h with
  | @line number fault _ =>
    have hn := newline_notMem_toDigits number
    cases fault <;> simp [message, LineFault.message, hn]
  | left _ hf =>
    obtain ⟨_, _, _, _, _, _, hr, _⟩ := hf
    exact newline_notMem_reservedToken (hword hr) (hword hr)
  | blank => decide
  | alternative _ _ hf =>
    obtain ⟨_, _, _, _, _, _, _, left, _, _, _, _, _, hu, hr⟩ := hf
    obtain ⟨_, _, _, _, ⟨_, hl⟩, _⟩ := hu
    exact newline_notMem_of_refused (hword hl) hr

end GrammarError

/-- The arguments print this and do not fail. -/
def Prints (b : ByteSources) (args : List String) (text : String) : Prop :=
  ∃ log, answer? b args = some ⟨0, text, log⟩

/-- The arguments print nothing and fail; the last that is logged is this message. -/
def Fails (b : ByteSources) (args : List String) (message : String) : Prop :=
  ∃ log, answer? b args = some ⟨1, "", log ++ message ++ "\n"⟩

namespace Options

theorem prints_of_finds (h : Invocation.ofCommandLine? args = some (.run o)) (hg : o.Finds b g)
    (hs : o.Supplied) : Prints b args (o.printed g) := by
  obtain ⟨log, ha⟩ := answer_of_finds hg hs
  exact ⟨log, by rw [answer?, h, ← ha]; rfl⟩

theorem fails_of_malformed (h : Invocation.ofCommandLine? args = some (.run o))
    (hb : o.bytes b = .ok text.toUTF8) (he : Grammar.ofText text = .error e) :
    Fails b args ("Error: Malformed grammar\n\nCaused by:\n    " ++ e.message) := by
  obtain ⟨events, hsession⟩ := session_of_malformed (source_eq_ok_iff.mpr hb) he
  refine ⟨(o.session b.decoded).log o.level, ?_⟩
  have hhead : "Error: Malformed grammar\n\nCaused by:\n    " =
      "Error: " ++ ("Malformed grammar" ++ "\n\nCaused by:\n    ") := rfl
  simp only [answer?, h, Option.map_some, Invocation.response, Session.response, hsession,
    Failure.message, Failure.causeText, hhead, String.append_assoc]

/-- One output as JSON, of the grammar on the standard input. -/
def asJson (output : Output) (inputs : List String) (trace : Bool) : Options :=
  ⟨[output], none, inputs, trace, false, true, 0, false⟩

section

variable {output : Output} {inputs : List String} {trace : Bool}

theorem prints_asJson {document : String}
    (h : Invocation.ofCommandLine? args = some (.run (asJson output inputs trace)))
    (hg : (asJson output inputs trace).Finds b g) (hs : output = .validation → inputs ≠ [])
    (ht : (asJson output inputs trace).outputText g.table output = document) :
    Prints b args (document ++ "\n") := by
  have hsupplied : (asJson output inputs trace).Supplied := fun hv =>
    hs (List.mem_singleton.mp hv).symm
  rw [← ht, ← printed_of_outputs rfl]
  exact prints_of_finds h hg hsupplied

theorem outputText_asJson_validation (T : Table g) (line : String) :
    (asJson output [line] trace).outputText T .validation =
      (T.validationReport line trace).json.render := by
  rw [outputText, textLines, asJson, List.map_singleton, String.intercalate_singleton]
  rfl

end

theorem ofCommandLine?_validate (line : String) :
    Invocation.ofCommandLine? ["validate", "-j", "-t", "--input=" ++ line] =
      some (.run (asJson .validation [line] true)) := by
  have hline (o : Options) : Reading.ofArgument? o ("--input=" ++ line) =
      some (.continue { o with inputs := o.inputs ++ [line] }) :=
    Reading.ofArgument?_argument o (.set .input line)
  rw [Invocation.ofCommandLine?, Invocation.ofArguments?_continue rfl,
    Invocation.ofArguments?_continue rfl, Invocation.ofArguments?_continue rfl,
    Invocation.ofArguments?_continue (hline _)]
  rfl

end Options

/-- For any text and any line, with the text as the standard input: if the text is of a grammar, the
command line prints the documents, each with a line break; if it is not, the documents hold the
message of its fault, one line, which is what the command line fails with. -/
theorem documents_agree (text line : String) (file : String → Except ReadFault ByteArray) :
    let b : ByteSources := ⟨.ok text.toUTF8, file⟩
    let validate := ["validate", "-j", "-t", "--input=" ++ line]
    match Grammar.ofText text with
    | .ok _ =>
      Prints b ["nff", "-j"] (Json.setsDocument text ++ "\n") ∧
      Prints b ["ll1", "-j"] (Json.tableDocument text ++ "\n") ∧
      Prints b ["grid", "-j"] (Json.tableDocument text ++ "\n") ∧
      Prints b validate (Json.validationDocument text line ++ "\n")
    | .error e =>
      (∀ written ∈ [Json.setsDocument text, Json.tableDocument text,
          Json.validationDocument text line],
        Json.Writes written (.object [("error", .string e.message)])) ∧
      '\n' ∉ e.message.toList ∧
      ∀ args ∈ [["nff", "-j"], ["ll1", "-j"], ["grid", "-j"], validate],
        Fails b args ("Error: Malformed grammar\n\nCaused by:\n    " ++ e.message) := by
  intro b validate
  have hsets : Invocation.ofCommandLine? ["nff", "-j"] = some (.run (.asJson .sets [] false)) := rfl
  have htable : Invocation.ofCommandLine? ["ll1", "-j"] =
      some (.run (.asJson .table [] false)) := rfl
  have hgrid : Invocation.ofCommandLine? ["grid", "-j"] =
      some (.run (.asJson .grid [] false)) := rfl
  have hvalidate : Invocation.ofCommandLine? validate =
      some (.run (.asJson .validation [line] true)) := Options.ofCommandLine?_validate line
  split
  · next g hg =>
    have hfinds (output : Output) (inputs : List String) (trace : Bool) :
        (Options.asJson output inputs trace).Finds b g := ⟨text, rfl, hg⟩
    rw [Json.setsDocument_of_ok hg, Json.tableDocument_of_ok hg, Json.validationDocument_of_ok hg]
    have hline : [line] ≠ [] := List.cons_ne_nil _ _
    exact ⟨Options.prints_asJson hsets (hfinds _ _ _) nofun rfl,
      Options.prints_asJson htable (hfinds _ _ _) nofun rfl,
      Options.prints_asJson hgrid (hfinds _ _ _) nofun rfl,
      Options.prints_asJson hvalidate (hfinds _ _ _) (fun _ => hline)
        (Options.outputText_asJson_validation _ _)⟩
  · next e he =>
    refine ⟨fun written hw => ?_, GrammarError.newline_notMem_message he, ?_⟩
    · rw [Json.eq_of_mem_documents he hw]
      exact Json.writes_render _
    · simp only [List.forall_mem_cons, List.not_mem_nil, IsEmpty.forall_iff, implies_true, and_true]
      exact ⟨Options.fails_of_malformed hsets rfl he, Options.fails_of_malformed htable rfl he,
        Options.fails_of_malformed hgrid rfl he, Options.fails_of_malformed hvalidate rfl he⟩

end Predictive
