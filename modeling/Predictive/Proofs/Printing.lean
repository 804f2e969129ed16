import Predictive.Command.Session

namespace Predictive

namespace Command

variable {α β : Type} {m : Command α} {f : α → Command β} {console left : Console}
  {failure : Failure}

theorem run_bind_of_ok {a : α} (h : m.run console = .ok a left) :
    (m >>= f).run console = (f a).run left := by
  rw [EStateM.run_bind, h]

theorem run_bind_eq_ok_iff {b : β} : (m >>= f).run console = .ok b left ↔
    ∃ a between, m.run console = .ok a between ∧ (f a).run between = .ok b left := by
  rw [EStateM.run_bind]
  cases m.run console <;> simp [and_assoc]

theorem run_bind_eq_error_iff : (m >>= f).run console = .error failure left ↔
    m.run console = .error failure left ∨
      ∃ a between, m.run console = .ok a between ∧ (f a).run between = .error failure left := by
  rw [EStateM.run_bind]
  cases m.run console <;> simp [and_assoc]

theorem run_log (events : List Event) (console : Console) :
    (log events).run console = .ok () ⟨console.events ++ events, console.output⟩ := rfl

/-- If it fails, it has printed nothing. -/
def FailsSilently (m : Command α) : Prop :=
  ∀ ⦃console left failure⦄, m.run console = .error failure left → left.output = console.output

/-- Be there a failure or not, nothing is printed. -/
structure PrintsNothing (m : Command α) : Prop where
  of_error : FailsSilently m
  of_ok : ∀ ⦃console left a⦄, m.run console = .ok a left → left.output = console.output

theorem printsNothing_log (events : List Event) : PrintsNothing (log events) where
  of_error _ _ _ h := by cases h
  of_ok _ _ _ h := by cases h; rfl

theorem printsNothing_ofExcept (x : Except Failure α) :
    PrintsNothing (MonadExcept.ofExcept x : Command α) where
  of_error _ _ _ h := by
    cases x <;> cases h
    rfl
  of_ok _ _ _ h := by
    cases x <;> cases h
    rfl

/-- A failure behind a part that prints nothing. -/
theorem PrintsNothing.failsSilently_bind (hm : PrintsNothing m) (hf : ∀ a, FailsSilently (f a)) :
    FailsSilently (m >>= f) := by
  intro console left failure h
  obtain h | ⟨a, between, ha, h⟩ := run_bind_eq_error_iff.mp h
  · exact hm.of_error h
  · exact (hf a h).trans (hm.of_ok ha)

theorem PrintsNothing.bind (hm : PrintsNothing m) (hf : ∀ a, PrintsNothing (f a)) :
    PrintsNothing (m >>= f) where
  of_error := hm.failsSilently_bind fun a => (hf a).of_error
  of_ok _ _ _ h := by
    obtain ⟨a, between, ha, h⟩ := run_bind_eq_ok_iff.mp h
    exact ((hf a).of_ok h).trans (hm.of_ok ha)

end Command

namespace Options

open Command

variable {o : Options} {s : Sources} {g : Grammar} {text : String} {e : GrammarError}
  {failure : Failure} {console left : Console}

/-- There is something to validate if a validation is asked for. -/
def Supplied (o : Options) : Prop := .validation ∈ o.outputs → o.inputs ≠ []

/-- What is printed about the grammar, output by output. -/
def printed (o : Options) (g : Grammar) : String :=
  String.join (o.outputs.map fun output => o.outputText g.table output ++ "\n")

theorem run_printOutput (o : Options) (T : Table g) (output : Output) (console : Console) :
    (o.printOutput T output).run console = .ok () ⟨console.events ++ o.outputEvents T output,
      console.output ++ (o.outputText T output ++ "\n")⟩ := rfl

/-- No output fails, and each is printed behind those in front of it. -/
theorem run_forM_printOutput (o : Options) (T : Table g) (outputs : List Output)
    (console : Console) :
    (outputs.forM (o.printOutput T)).run console = .ok ()
      ⟨console.events ++ outputs.flatMap (o.outputEvents T), console.output ++
        String.join (outputs.map fun output => o.outputText T output ++ "\n")⟩ := by
  -- Over the outputs that are still to come; `console` is what those in front of them have left.
  induction outputs generalizing console with
  | nil =>
    rw [List.flatMap_nil, List.append_nil, List.map_nil, String.join_nil, String.append_empty]
    rfl
  | cons output outputs ih =>
    rw [List.forM, run_bind_of_ok (o.run_printOutput T output console), ih, List.flatMap_cons,
      List.map_cons, String.join_cons, List.append_assoc, String.append_assoc]

theorem run_requireInput_eq_ok_iff : o.requireInput.run console = .ok () left ↔
    o.Supplied ∧ console = left := by
  by_cases h : .validation ∈ o.outputs ∧ o.inputs = []
  · rw [requireInput, if_pos h, EStateM.run_throw]
    simp [Supplied, h]
  · have hs : o.Supplied := fun hv hi => h ⟨hv, hi⟩
    rw [requireInput, if_neg h, EStateM.run_pure]
    simp [hs]

theorem printsNothing_requireInput (o : Options) : PrintsNothing o.requireInput := by
  unfold requireInput
  split
  · exact printsNothing_ofExcept (.error .missingInput)
  · exact printsNothing_ofExcept (.ok ())

theorem printsNothing_readGrammar (o : Options) (s : Sources) : PrintsNothing (o.readGrammar s) :=
  (printsNothing_ofExcept _).bind fun _ => (printsNothing_log _).bind fun _ =>
    printsNothing_ofExcept _

theorem run_readGrammar (ht : o.source s = .ok text) (console : Console) :
    (o.readGrammar s).run console =
      (MonadExcept.ofExcept ((Grammar.ofText text).mapError .malformedGrammar)
        : Command Grammar).run
        ⟨console.events ++ Rule.warningEvents (Rule.ofText text), console.output⟩ := by
  rw [readGrammar, ht]
  rfl

/-- The source is a text of this grammar. -/
def Obtains (o : Options) (s : Sources) (g : Grammar) : Prop :=
  ∃ text, o.source s = .ok text ∧ Grammar.ofText text = .ok g

theorem Obtains.run_readGrammar (h : o.Obtains s g) (console : Console) :
    ∃ left, (o.readGrammar s).run console = .ok g left := by
  obtain ⟨text, ht, hg⟩ := h
  rw [Options.run_readGrammar ht, hg]
  exact ⟨_, rfl⟩

theorem obtains_of_run_readGrammar (h : (o.readGrammar s).run console = .ok g left) :
    o.Obtains s g := by
  cases ht : o.source s with
  | error failure =>
    rw [readGrammar, ht] at h
    cases h
  | ok text =>
    rw [run_readGrammar ht] at h
    cases hg : Grammar.ofText text with
    | error e =>
      rw [hg] at h
      cases h
    | ok g' =>
      rw [hg] at h
      cases h
      exact ⟨text, ht, hg⟩

/-- All that can fail is in front of the first output. -/
theorem failsSilently_run (o : Options) (s : Sources) : FailsSilently (o.run s) := by
  refine (o.printsNothing_readGrammar s).failsSilently_bind fun g =>
    (printsNothing_log _).failsSilently_bind fun _ =>
      o.printsNothing_requireInput.failsSilently_bind fun _ => ?_
  -- What is left is the loop, which prints but has no way to fail.
  intro console left failure h
  rw [run_forM_printOutput] at h
  cases h

theorem run_of_supplied (hg : o.Obtains s g) (hs : o.Supplied) (console : Console) :
    ∃ events, (o.run s).run console = .ok () ⟨events, console.output ++ o.printed g⟩ := by
  obtain ⟨read, hread⟩ := hg.run_readGrammar console
  have hsame : read.output = console.output := (o.printsNothing_readGrammar s).of_ok hread
  have hrequired (left : Console) : o.requireInput.run left = .ok () left :=
    run_requireInput_eq_ok_iff.mpr ⟨hs, rfl⟩
  rw [run, run_bind_of_ok hread, run_bind_of_ok (run_log _ _), run_bind_of_ok (hrequired _),
    run_forM_printOutput, ← hsame]
  exact ⟨_, rfl⟩

theorem supplied_of_run (h : (o.run s).run console = .ok () left) :
    (∃ g, o.Obtains s g) ∧ o.Supplied := by
  obtain ⟨g, read, hread, h⟩ := run_bind_eq_ok_iff.mp h
  obtain ⟨_, logged, -, h⟩ := run_bind_eq_ok_iff.mp h
  obtain ⟨_, required, hrequired, -⟩ := run_bind_eq_ok_iff.mp h
  exact ⟨⟨g, obtains_of_run_readGrammar hread⟩, (run_requireInput_eq_ok_iff.mp hrequired).1⟩

theorem run_of_malformed (ht : o.source s = .ok text) (he : Grammar.ofText text = .error e)
    (console : Console) : ∃ left, (o.run s).run console = .error (.malformedGrammar e) left := by
  simp only [run, run_bind_eq_error_iff, run_readGrammar ht, he]
  exact ⟨_, .inl rfl⟩

theorem session_of_error (h : (o.run s).run .empty = .error failure left) :
    o.session s = ⟨⟨left.events, ""⟩, .error failure⟩ := by
  have houtput : left.output = "" := o.failsSilently_run s h
  rw [session, h, ← houtput]

theorem session_of_supplied (hg : o.Obtains s g) (hs : o.Supplied) :
    ∃ events, o.session s = ⟨⟨events, o.printed g⟩, .ok ()⟩ := by
  obtain ⟨events, h⟩ := run_of_supplied hg hs .empty
  refine ⟨events, ?_⟩
  rw [session, h, Console.empty, String.empty_append]

theorem session_of_not (h : ¬ ((∃ g, o.Obtains s g) ∧ o.Supplied)) :
    ∃ events failure, o.session s = ⟨⟨events, ""⟩, .error failure⟩ := by
  cases hrun : (o.run s).run .empty with
  | ok _ left => exact absurd (supplied_of_run hrun) h
  | error failure left => exact ⟨left.events, failure, session_of_error hrun⟩

theorem session_of_malformed (ht : o.source s = .ok text) (he : Grammar.ofText text = .error e) :
    ∃ events, o.session s = ⟨⟨events, ""⟩, .error (.malformedGrammar e)⟩ := by
  obtain ⟨left, h⟩ := run_of_malformed ht he .empty
  exact ⟨left.events, session_of_error h⟩

end Options

end Predictive
