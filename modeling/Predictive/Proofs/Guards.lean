import Mathlib.Logic.Relation
import Predictive.Proofs.Steps

namespace Predictive

/-- A stack and how much of the input has been read. -/
structure Cursor where
  stack : List Symbol
  position : Nat

namespace Cursor

/-- The symbol at the position; behind the input stands the end mark. -/
def lookahead (input : List Symbol) (s : Cursor) : Symbol := input[s.position]?.getD .endOfInput

/-- What is left of the input; the cut is kept inside it. -/
def rest (input : List Symbol) (s : Cursor) : List Symbol :=
  input.drop (min s.position input.length)

def config (input : List Symbol) (s : Cursor) : Config := ⟨s.stack, s.rest input, s.position⟩

end Cursor

variable {g : Grammar} {T : Table g} {c c' : Config} {s s' : Cursor} {input : List Symbol}
  {tokens : List String}

namespace Table

/-- The action of a machine that is ready for every state: it drops an `ε` from the stack without
an action, has a lookahead at every position, and complains about what is left of the input when
the stack is empty. -/
def guarded (T : Table g) (input : List Symbol) (s : Cursor) : Option Action :=
  match s.stack with
  | [] =>
    some (.halt (if s.position < input.length then .rejected (.trailingInput s.position)
      else .accepted))
  | .epsilon :: _ => none
  | .nonTerminal n :: _ => some (T.decideOn n (s.lookahead input) s.position)
  | top :: _ =>
    some (if top = s.lookahead input then .matched (s.lookahead input)
      else .halt (.rejected (.unexpectedToken top (s.lookahead input) s.position)))

/-- One turn of that machine; it looks a production up by its number. -/
inductive Turns (T : Table g) (input : List Symbol) (s : Cursor) : Cursor → Prop
  | drop : T.guarded input s = none → Turns T input s ⟨s.stack.tail, s.position⟩
  | matched {t} : T.guarded input s = some (.matched t) →
      Turns T input s ⟨s.stack.tail, s.position + 1⟩
  | expand {e p} : T.guarded input s = some (.expand e) → g.productions[e.id]? = some p →
      Turns T input s ⟨p.body ++ s.stack.tail, s.position⟩

/-- The states in which that machine is found on the tokens. -/
def Visits (T : Table g) (tokens : List String) (s : Cursor) : Prop :=
  Relation.ReflTransGen (T.Turns (initial g tokens).input) ⟨(initial g tokens).stack, 0⟩ s

end Table

/-- In this state none of the precautions is of use. -/
structure Cursor.Unguarded (T : Table g) (input : List Symbol) (s : Cursor) : Prop where
  clean : .epsilon ∉ s.stack
  bottom : s.stack ≠ [] → ∃ above, s.stack = above ++ [.endOfInput] ∧ .endOfInput ∉ above
  inside : s.stack ≠ [] → input[s.position]? = some (s.lookahead input)
  unclipped : s.position ≤ input.length
  finished : s.stack = [] ↔ s.position = input.length
  action : T.guarded input s = some (T.action (s.config input))

namespace Config

/-- What every move of a run keeps. -/
def Kept (g : Grammar) (total : Nat) (c : Config) : Prop := .epsilon ∉ c.stack ∧ c.Valid g total

theorem Kept.of_moves {total : Nat} (hc : c.Kept g total) (h : T.Moves c' c) : c'.Kept g total := by
  cases h with
  | matched h => exact ⟨epsilon_notMem_advance hc.1, hc.2.advance h⟩
  | expand h => exact ⟨epsilon_notMem_expand hc.1 _, hc.2.expand h⟩

theorem kept_initial (g : Grammar) (tokens : List String) :
    (Table.initial g tokens).Kept g (tokens.length + 1) :=
  ⟨by simp [Table.initial], Table.valid_initial g tokens⟩

end Config

namespace Delimited

variable {l : List Symbol}

theorem exists_cons (h : Delimited l) : ∃ s l', l = s :: l' := by
  cases h with
  | last => exact ⟨_, _, rfl⟩
  | cons _ _ => exact ⟨_, _, rfl⟩

theorem exists_above (h : Delimited l) :
    ∃ above, l = above ++ [.endOfInput] ∧ .endOfInput ∉ above := by
  induction h with
  | last => exact ⟨[], rfl, List.not_mem_nil⟩
  | @cons s l hs _ ih =>
    obtain ⟨above, rfl, habove⟩ := ih
    exact ⟨s :: above, rfl, by simp [Ne.symm hs, habove]⟩

end Delimited

namespace Cursor

theorem rest_eq (input : List Symbol) (s : Cursor) : s.rest input = input.drop s.position := by
  obtain h | h := Nat.le_total s.position input.length
  · rw [rest, Nat.min_eq_left h]
  · rw [rest, Nat.min_eq_right h, List.drop_length, List.drop_eq_nil_of_le h]

theorem getElem?_of_rest {found : Symbol} {later : List Symbol}
    (h : s.rest input = found :: later) : input[s.position]? = some found := by
  rw [rest_eq] at h
  rw [← List.head?_drop, h, List.head?_cons]

theorem config_advance (input : List Symbol) (s : Cursor) :
    config input ⟨s.stack.tail, s.position + 1⟩ = (s.config input).advance := by
  simp only [config, Config.advance, rest_eq, List.tail_drop]

theorem config_expand (input : List Symbol) (s : Cursor) (e : Entry) :
    config input ⟨e.production.body ++ s.stack.tail, s.position⟩ = (s.config input).expand e := rfl

/-- The configuration of the state is one of a run over the input. -/
def Kept (g : Grammar) (input : List Symbol) (s : Cursor) : Prop :=
  (s.config input).Kept g input.length

/-- Nothing is left to do, or there is a symbol on the stack and one to be read. -/
theorem Kept.ends_or_meets (h : s.Kept g input) : s.stack = [] ∧ s.rest input = [] ∨
    ∃ top below found later, s.stack = top :: below ∧ s.rest input = found :: later := by
  obtain hend | ⟨hstack, hrest⟩ := h.2.marked
  · exact .inl hend
  · obtain ⟨top, below, hstack⟩ := hstack.exists_cons
    obtain ⟨found, later, hrest⟩ := hrest.exists_cons
    exact .inr ⟨top, below, found, later, hstack, hrest⟩

theorem Kept.guarded_eq (h : s.Kept g input) :
    T.guarded input s = some (T.action (s.config input)) := by
  have hread : s.position + (s.rest input).length = input.length := h.2.read
  obtain ⟨hstack, hrest⟩ | ⟨top, below, found, later, hstack, hrest⟩ := h.ends_or_meets
  · have hend : ¬ s.position < input.length := by
      rw [hrest, List.length_nil] at hread
      omega
    simp only [Table.guarded, config, hstack, hrest, if_neg hend, Table.action]
  · have hlook : s.lookahead input = found := by
      rw [lookahead, getElem?_of_rest hrest, Option.getD_some]
    rw [Table.guarded, config, hstack, hrest, hlook]
    cases top with
    | epsilon =>
      have hclean : .epsilon ∉ s.stack := h.1
      simp [hstack] at hclean
    | nonTerminal n => rfl
    | terminal _ | endOfInput => rw [Table.action_compare (by simp)]

theorem Kept.unguarded (h : s.Kept g input) : s.Unguarded T input := by
  have hread : s.position + (s.rest input).length = input.length := h.2.read
  refine ⟨h.1, ?_, ?_, by omega, ?_, h.guarded_eq⟩
  · intro hne
    obtain ⟨hstack, -⟩ | ⟨hstack, -⟩ := h.2.marked
    · exact absurd hstack hne
    · exact hstack.exists_above
  · intro hne
    obtain ⟨hstack, -⟩ | ⟨top, below, found, later, -, hrest⟩ := h.ends_or_meets
    · exact absurd hstack hne
    · rw [lookahead, getElem?_of_rest hrest, Option.getD_some]
  · obtain ⟨hstack, hrest⟩ | ⟨top, below, found, later, hstack, hrest⟩ := h.ends_or_meets
    · rw [hrest, List.length_nil] at hread
      exact iff_of_true hstack hread
    · rw [hrest, List.length_cons] at hread
      refine iff_of_false ?_ (by omega)
      rw [hstack]
      exact List.cons_ne_nil top below

end Cursor

namespace Table

theorem moves_of_turns (hk : s.Kept g input) (h : T.Turns input s s') :
    T.Moves (s'.config input) (s.config input) := by
  have hg := hk.guarded_eq (T := T)
  cases h with
  | drop hd => cases hg.symm.trans hd
  | matched hm =>
    rw [Cursor.config_advance]
    exact .matched (Option.some.inj (hg.symm.trans hm))
  | @expand e p he hp =>
    have ha : T.action (s.config input) = .expand e := Option.some.inj (hg.symm.trans he)
    obtain rfl : e.production = p := Option.some.inj ((production_of_expand ha).symm.trans hp)
    rw [Cursor.config_expand]
    exact .expand ha

theorem exists_turns (hk : s.Kept g input) (h : T.Moves c (s.config input)) :
    ∃ s', T.Turns input s s' ∧ s'.config input = c := by
  have hg := hk.guarded_eq (T := T)
  cases h with
  | matched ha =>
    rw [ha] at hg
    exact ⟨_, .matched hg, Cursor.config_advance input s⟩
  | expand ha =>
    rw [ha] at hg
    exact ⟨_, .expand hg (production_of_expand ha), Cursor.config_expand input s _⟩

/-- The configurations of a trace are those that moves lead to. -/
theorem exists_step_iff : (∃ step ∈ (T.traceFrom c).steps, step.config = c') ↔
    Relation.ReflTransGen (fun a b => T.Moves b a) c c' := by
  induction c using moves_induction (T := T) with
  | halt c verdict h =>
    -- Where the machine stops, nothing is led to but the configuration itself.
    have hstay (d : Config) : ¬ T.Moves d c := fun hm => not_halt_of_moves hm verdict h
    rw [traceFrom_of_halt h, Relation.ReflTransGen.cases_head_iff]
    simp [hstay]
  | moves c d h ih =>
    rw [steps_of_moves h, Relation.ReflTransGen.cases_head_iff]
    simp only [List.mem_cons, exists_eq_or_imp, ih]
    apply or_congr_right
    constructor
    · intro hd
      exact ⟨d, h, hd⟩
    · rintro ⟨d', h', hd'⟩
      obtain rfl : d' = d := Option.some.inj ((next?_of_moves h').symm.trans (next?_of_moves h))
      exact hd'

theorem config_start (g : Grammar) (tokens : List String) :
    Cursor.config (initial g tokens).input ⟨(initial g tokens).stack, 0⟩ = initial g tokens := rfl

theorem visits_step (h : T.Visits tokens s) : s.Kept g (initial g tokens).input ∧
    Relation.ReflTransGen (fun a b => T.Moves b a) (initial g tokens)
      (s.config (initial g tokens).input) := by
  have hlen : (initial g tokens).input.length = tokens.length + 1 := by simp [initial]
  induction h with
  | refl =>
    rw [Cursor.Kept, config_start, hlen]
    exact ⟨Config.kept_initial g tokens, .refl⟩
  | tail _ hturn ih =>
    have hmove := moves_of_turns ih.1 hturn
    exact ⟨Config.Kept.of_moves ih.1 hmove, ih.2.tail hmove⟩

theorem exists_visits (h : Relation.ReflTransGen (fun a b => T.Moves b a) (initial g tokens) c) :
    ∃ s, T.Visits tokens s ∧ s.config (initial g tokens).input = c := by
  induction h with
  | refl => exact ⟨_, .refl, config_start g tokens⟩
  | tail _ hmove ih =>
    obtain ⟨s, hs, rfl⟩ := ih
    obtain ⟨s', hturn, hs'⟩ := exists_turns (visits_step hs).1 hmove
    exact ⟨s', hs.tail hturn, hs'⟩

/-- A machine that is ready for everything makes the very moves of the trace, for in none of the
states it comes to it needs to be: no `ε` is on the stack, which ends with the only end mark in it
until the whole input with its end mark has been read and is empty from then on; there is a symbol
to be read as long as it is not empty, nothing is left when it is, and the numbers in the cells are
those of productions. -/
theorem guards_unused (T : Table g) (tokens : List String) :
    (∀ s, T.Visits tokens s → s.Unguarded T (tokens.map .terminal ++ [.endOfInput])) ∧
    (∀ c, (∃ step ∈ (T.trace tokens).steps, step.config = c) ↔
      ∃ s, T.Visits tokens s ∧ s.config (tokens.map .terminal ++ [.endOfInput]) = c) ∧
    (∀ position, T.validate tokens ≠ .rejected (.trailingInput position)) ∧
    ∀ n t, ∀ e ∈ T.get n t,
      e.id < g.productions.length ∧ g.productions[e.id]? = some e.production := by
  refine ⟨?_, ?_, T.validate_ne_trailing tokens, ?_⟩
  · intro s hs
    exact (visits_step hs).1.unguarded
  · intro c
    rw [trace, exists_step_iff]
    constructor
    · exact exists_visits
    · rintro ⟨s, hs, rfl⟩
      exact (visits_step hs).2
  · intro n t e he
    obtain ⟨hid, -⟩ := T.mem_get.mp he
    exact ⟨(List.getElem?_eq_some_iff.mp hid).1, hid⟩

end Table

end Predictive
