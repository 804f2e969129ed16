import Predictive.Grammar.Text
import Predictive.Proofs.Leftmost
import Predictive.Proofs.Run

namespace Predictive

namespace Trace

/-- The numbers of the productions that were expanded, in order. -/
def expanded (t : Trace) : List Nat :=
  t.steps.filterMap fun s =>
    match s.action with
    | .expand e => some e.id
    | _ => none

/-- The symbols that were matched, in order. -/
def matched (t : Trace) : List Symbol :=
  t.steps.filterMap fun s =>
    match s.action with
    | .matched symbol => some symbol
    | _ => none

end Trace

namespace Table

variable {g : Grammar} {T : Table g} {c : Config}

theorem expanded_of_matched {s : Symbol} (h : T.action c = .matched s) :
    (T.traceFrom c).expanded = (T.traceFrom c.advance).expanded := by
  rw [traceFrom_of_matched h]
  rfl

theorem matched_of_matched {s : Symbol} (h : T.action c = .matched s) :
    (T.traceFrom c).matched = s :: (T.traceFrom c.advance).matched := by
  rw [traceFrom_of_matched h]
  rfl

theorem expanded_of_expand {e : Entry} (h : T.action c = .expand e) :
    (T.traceFrom c).expanded = e.id :: (T.traceFrom (c.expand e)).expanded := by
  rw [traceFrom_of_expand h]
  rfl

theorem matched_of_expand {e : Entry} (h : T.action c = .expand e) :
    (T.traceFrom c).matched = (T.traceFrom (c.expand e)).matched := by
  rw [traceFrom_of_expand h]
  rfl

/-- An accepting run from any configuration derives the rest of the input from the stack. -/
def Replays (T : Table g) (c : Config) : Prop :=
  (T.traceFrom c).verdict = .accepted →
    g.leftmost (T.traceFrom c).expanded c.stack = some c.input ∧
      (T.traceFrom c).matched = c.input

theorem replays_of_halt {verdict : Verdict} (h : T.action c = .halt verdict) : T.Replays c := by
  intro ha
  rw [traceFrom_of_halt h] at ha
  dsimp only at ha
  subst ha
  rw [traceFrom_of_halt h]
  cases acts_of_action h with
  | accept => exact ⟨rfl, rfl⟩

theorem replays_of_matched {s : Symbol} (h : T.action c = .matched s)
    (ih : T.Replays c.advance) : T.Replays c := by
  intro ha
  rw [(trace_of_moves (.matched h)).1] at ha
  obtain ⟨hl, hm⟩ := ih ha
  rw [expanded_of_matched h, matched_of_matched h]
  cases acts_of_action h with
  | matched hs =>
    rw [Grammar.leftmost_cons hs]
    exact ⟨congrArg (Option.map (s :: ·)) hl, congrArg (s :: ·) hm⟩

theorem replays_of_expand {e : Entry} (h : T.action c = .expand e)
    (ih : T.Replays (c.expand e)) : T.Replays c := by
  intro ha
  rw [(trace_of_moves (.expand h)).1] at ha
  obtain ⟨hl, hm⟩ := ih ha
  rw [expanded_of_expand h, matched_of_expand h]
  refine ⟨?_, hm⟩
  cases acts_of_action h with
  | expand he =>
    obtain ⟨hid, rfl⟩ := production_of_get he
    rw [Grammar.leftmost_expand hid]
    exact hl

theorem replays (T : Table g) (c : Config) : T.Replays c := by
  induction c using run_induction (T := T) with
  | halt c verdict h => exact replays_of_halt h
  | matched c s h ih => exact replays_of_matched h ih
  | expand c e h ih => exact replays_of_expand h ih

/-- The end mark at the bottom of the stack is the one behind the tokens. -/
theorem leftmost_of_accepted {tokens : List String} (h : T.validate tokens = .accepted) :
    g.leftmost (T.trace tokens).expanded [.nonTerminal g.start] =
      some (tokens.map .terminal) := by
  obtain ⟨hl, -⟩ := T.replays (initial g tokens) h
  have hend : Finished [.endOfInput] := by
    intro n hn
    simp at hn
  have hs : (initial g tokens).stack = [.nonTerminal g.start] ++ [.endOfInput] := rfl
  rw [hs, Grammar.leftmost_append hend] at hl
  obtain ⟨m, hm, he⟩ := Option.map_eq_some_iff.mp hl
  have he' : m = tokens.map .terminal := List.append_cancel_right he
  rw [← he']
  exact hm

theorem sentence_of_accepted {tokens : List String} (h : T.validate tokens = .accepted) :
    g.Sentence tokens := by
  apply Grammar.derives_of_leftmost
  exact leftmost_of_accepted h

/-- What is accepted is derived: the expansions of the trace are a leftmost derivation of the
tokens from the start symbol, and the trace matches the tokens and the end of the input. -/
theorem validate_sound (T : Table g) (tokens : List String) (h : T.validate tokens = .accepted) :
    g.Sentence tokens ∧
      g.leftmost (T.trace tokens).expanded [.nonTerminal g.start] =
        some (tokens.map .terminal) ∧
      (T.trace tokens).matched = tokens.map .terminal ++ [.endOfInput] := by
  obtain ⟨-, hm⟩ := T.replays (initial g tokens) h
  exact ⟨sentence_of_accepted h, leftmost_of_accepted h, hm⟩

/-- Nested brackets; the cell of `S` for `c` holds two productions. -/
def brackets : Grammar where
  start := "S"
  nonTerminals := ["S", "A"]
  productions := [⟨"S", [.nonTerminal "A", .terminal "b"]⟩, ⟨"S", [.terminal "c"]⟩,
    ⟨"S", [.terminal "c", .terminal "d"]⟩,
    ⟨"A", [.terminal "(", .nonTerminal "S", .terminal ")"]⟩, ⟨"A", [.epsilon]⟩]
  terminals := ["b", "c", "d", "(", ")"]
  warnings := []
  start_declared := by decide
  left_declared := by decide
  right_declared := by simp [Symbol.IsRight]

theorem validate_sound_brackets :
    Grammar.ofText "S -> A b | c | c d\nA -> ( S ) | ε" = .ok brackets ∧
      brackets.table.validate ["(", "b", ")", "b"] = .accepted ∧
      brackets.Sentence ["(", "b", ")", "b"] ∧
      brackets.leftmost (brackets.table.trace ["(", "b", ")", "b"]).expanded [.nonTerminal "S"] =
        some (["(", "b", ")", "b"].map .terminal) ∧
      (brackets.table.trace ["(", "b", ")", "b"]).matched =
        ["(", "b", ")", "b"].map .terminal ++ [.endOfInput] := by
  have h : brackets.table.validate ["(", "b", ")", "b"] = .accepted := by
    apply verdict_of_within (n := 10)
    decide +kernel
  exact ⟨rfl, h, validate_sound brackets.table _ h⟩

end Table

end Predictive
