import Predictive.Proofs.JsonReading
import Predictive.Report.Format

namespace Predictive

variable {g : Grammar}

theorem Verdict.isAccepted_eq (v : Verdict) : v.isAccepted = v.reason?.isNone := by
  cases v <;> rfl

theorem Table.accepted_validationReport (T : Table g) (line : String) (withSteps : Bool) :
    (T.validationReport line withSteps).accepted = (T.validateLine line).isAccepted := by
  rw [Verdict.isAccepted_eq]
  exact Option.isNone_map

namespace Json

/-- The text is one line without control characters, and it is the text of this document and of no
other. -/
def Writes (text : String) (document : Json) : Prop :=
  (∀ c ∈ text.toList, 0x20 ≤ c.toNat) ∧ ∀ j, Denotes text j ↔ j = document

theorem writes_render (j : Json) : Writes j.render j := by
  refine ⟨?_, fun _ => denotes_render_iff j⟩
  rw [render, String.toList_ofList]
  exact le_toNat_chars j

section

variable {text : String} {e : GrammarError}

theorem ofGrammarText_of_ok (h : Grammar.ofText text = .ok g) (document : Grammar → Json) :
    ofGrammarText text document = document g := by
  rw [ofGrammarText, h]

theorem ofGrammarText_of_error (h : Grammar.ofText text = .error e) (document : Grammar → Json) :
    ofGrammarText text document = .object [("error", .string e.message)] := by
  rw [ofGrammarText, h]
  rfl

theorem setsDocument_of_ok (h : Grammar.ofText text = .ok g) :
    setsDocument text = g.analyse.setsReport.json.render := by
  rw [setsDocument, ofGrammarText_of_ok h]

theorem tableDocument_of_ok (h : Grammar.ofText text = .ok g) :
    tableDocument text = g.table.report.json.render := by
  rw [tableDocument, ofGrammarText_of_ok h]

theorem validationDocument_of_ok (h : Grammar.ofText text = .ok g) (line : String) :
    validationDocument text line = (g.table.validationReport line true).json.render := by
  rw [validationDocument, ofGrammarText_of_ok h]

/-- All documents about a text that is refused are the same. -/
theorem eq_of_mem_documents (h : Grammar.ofText text = .error e) {line written : String}
    (hw : written ∈ [setsDocument text, tableDocument text, validationDocument text line]) :
    written = render (.object [("error", .string e.message)]) := by
  simp only [setsDocument, tableDocument, validationDocument, ofGrammarText_of_error h,
    List.mem_cons, List.not_mem_nil, or_false, or_self] at hw
  exact hw

end

/-- For any text and any line, what is written about the sets, the table and the validation of the
line is a document that can be read in one way: as an object with all fields of the report, name for
name, or with the message of the fault of the text. -/
theorem documents_exact (text line : String) :
    match Grammar.ofText text with
    | .error e =>
      ∀ written ∈ [setsDocument text, tableDocument text, validationDocument text line],
        Writes written (.object [("error", .string e.message)])
    | .ok g =>
      Writes (setsDocument text) (.object [
        ("data", .array (g.analyse.setsReport.rows.map fun row => .object [
          ("name", .string row.name),
          ("nullable", .bool row.nullable),
          ("first", .array (row.first.map .string)),
          ("follow", .array (row.follow.map .string))]))]) ∧
      Writes (tableDocument text) (.object [
        ("terminals", .array (g.table.report.columns.map .string)),
        ("rows", .array (g.table.report.rows.map fun row => .object [
          ("name", .string row.name),
          ("cells", .array (row.cells.map fun cell => .object [
            ("lookahead", .string cell.lookahead),
            ("productions", .array (cell.productions.map .string))]))])),
        ("conflicts", .array (g.table.report.conflicts.map fun conflict =>
          .array [.string conflict.1, .string conflict.2])),
        ("ll1", .bool g.table.report.isLL1)]) ∧
      Writes (validationDocument text line) (.object [
        ("input", .string (g.table.validationReport line true).input),
        ("accepted", .bool (g.table.validateLine line).isAccepted),
        ("reason", (g.table.validationReport line true).reason.elim .null .string),
        ("steps", .array ((g.table.validationReport line true).steps.map fun step => .object [
          ("stack", .string step.stack),
          ("input", .string step.input),
          ("action", .string step.action)]))]) := by
  split
  · next e h =>
    intro written hw
    rw [eq_of_mem_documents h hw]
    exact writes_render _
  · next g h =>
    rw [setsDocument_of_ok h, tableDocument_of_ok h, validationDocument_of_ok h,
      ← Table.accepted_validationReport g.table line true]
    have hreason (reason : Option String) : reason.elim .null .string = ofOption reason := by
      cases reason <;> rfl
    rw [hreason]
    exact ⟨writes_render g.analyse.setsReport.json, writes_render g.table.report.json,
      writes_render (g.table.validationReport line true).json⟩

end Json

end Predictive
