import Predictive.Proofs.Cells
import Predictive.Proofs.Completion
import Predictive.Proofs.Follow
import Predictive.Proofs.Invariant
import Predictive.Proofs.Soundness
import Predictive.Proofs.Standardization

namespace Predictive

namespace Grammar

variable {g : Grammar} {t : Symbol} {p : Production} {before after z : List Symbol}

/-- A leftmost derivation of a sentence replaces the non-terminal by the production with this number
while `t` is next: `t` is what the sentence, closed by the end mark, holds behind the tokens that
already stand in front of the non-terminal. -/
def Expands (g : Grammar) (n : String) (id : Nat) (t : Symbol) : Prop :=
  ∃ (tokens read : List String) (ids rest : List Nat) (after : List Symbol),
    g.leftmost ids [.nonTerminal g.start] =
      some (read.map .terminal ++ .nonTerminal n :: after) ∧
    g.leftmost (ids ++ id :: rest) [.nonTerminal g.start] = some (tokens.map .terminal) ∧
    (tokens.map .terminal ++ [.endOfInput])[read.length]? = some t

/-- Somewhere in what the start symbol derives, the production applied there makes the predicted
symbol come next. -/
theorem exists_context (hr : ∀ m ∈ g.nonTerminals, g.Reachable m) (hp : p ∈ g.productions)
    (ht : t ∈ g.analyse.predict p) :
    ∃ before after z rest, g.Derives [.nonTerminal g.start] (before ++ .nonTerminal p.left :: after) ∧
      g.Derives (p.body ++ after) z ∧ z ++ [.endOfInput] = t :: rest := by
  obtain hb | ⟨hv, hf⟩ := Analysis.mem_predict_iff.mp ht
  · obtain ⟨before, after, hd⟩ := hr p.left (g.left_declared p hp)
    obtain ⟨m, hm⟩ := exists_derives_of_begins hb
    exact ⟨before, after, t :: m ++ after, m ++ after ++ [.endOfInput], hd,
      hm.append_right after, rfl⟩
  · have hnil : g.Derives p.body [] := derives_nil_of_vanishes hv
    have hfollows : g.Follows p.left t := follows_of_mem_follow hf
    cases t with
    | terminal a =>
      obtain ⟨before, after, hd⟩ := (follows_terminal_iff hr).mp hfollows
      exact ⟨before, .terminal a :: after, .terminal a :: after, after ++ [.endOfInput], hd,
        hnil.append_right _, rfl⟩
    | endOfInput =>
      obtain ⟨before, hd⟩ := hfollows
      exact ⟨before, [], [], [], hd, hnil.append_right [], rfl⟩
    | nonTerminal _ | epsilon => exact hfollows.elim

/-- What comes first is the same when the rest has been derived to tokens. -/
theorem getElem?_of_derives {tokens read : List String} {rest : List Symbol}
    (hd : g.Derives z (tokens.map .terminal)) (ht : t.isInput)
    (hz : z ++ [.endOfInput] = t :: rest) :
    ((read ++ tokens).map .terminal ++ [.endOfInput])[read.length]? = some t := by
  have hd' : g.Derives (z ++ [.endOfInput]) (tokens.map .terminal ++ [.endOfInput]) :=
    hd.append_right [.endOfInput]
  rw [hz] at hd'
  obtain ⟨z', hz', -⟩ := exists_derives_tail (by rintro n rfl; cases ht) hd'
  rw [List.map_append, List.append_assoc, hz', List.getElem?_append_right (by simp)]
  simp

theorem expands_of_predict (hr : ∀ m ∈ g.nonTerminals, g.Reachable m)
    (hpr : ∀ m ∈ g.nonTerminals, g.Productive m) {id : Nat} (hid : g.productions[id]? = some p)
    (ht : t ∈ g.analyse.predict p) (hin : t.isInput) : g.Expands p.left id t := by
  have hp := List.mem_of_getElem? hid
  obtain ⟨before, after, z, rest, hd, hz, hrest⟩ := exists_context hr hp ht
  have hform := (sentential_nonTerminal g.start_declared).derives hd
  obtain ⟨hbefore, hafter⟩ := sentential_append.mp hform
  have hbody : g.Sentential (p.body ++ after) :=
    sentential_append.mpr ⟨sentential_body hp, hafter.tail⟩
  obtain ⟨read, hread⟩ := hbefore.exists_tokens hpr
  obtain ⟨tokens, htokens⟩ := (hbody.derives hz).exists_tokens hpr
  -- the tokens in front first, then the production, then the tokens behind
  obtain ⟨ids, after', hids, hafter'⟩ := exists_leftmost_front (finished_terminals read)
    (hd.trans (hread.append_right (.nonTerminal p.left :: after)))
  have hlast : g.Derives (read.map .terminal ++ p.body ++ after')
      ((read ++ tokens).map .terminal) := by
    have hb : g.Derives (p.body ++ after') (tokens.map .terminal) :=
      (hafter'.append_left p.body).trans (hz.trans htokens)
    simpa using hb.append_left (read.map .terminal)
  obtain ⟨ids', hids'⟩ := exists_leftmost (finished_terminals _) hlast
  refine ⟨read ++ tokens, read, ids, ids', after', hids, ?_, ?_⟩
  · rw [leftmost_ids_append, hids, Option.bind_some,
      leftmost_expand_behind hid ids' (finished_terminals read), hids']
  · exact getElem?_of_derives htokens hin hrest

end Grammar

namespace Analysis

theorem isInput_of_mem_predict {g : Grammar} {p : Production} {t : Symbol}
    (h : t ∈ g.analyse.predict p) : t.isInput := by
  obtain hb | ⟨-, hf⟩ := mem_predict_iff.mp h
  · exact Grammar.isInput_of_begins hb
  · obtain rfl | ⟨name, rfl⟩ :=
      Grammar.terminal_or_end_of_follows (Grammar.follows_of_mem_follow hf)
    · rfl
    · rfl

end Analysis

namespace Table

variable {g : Grammar} {T : Table g} {n : String} {t : Symbol} {id : Nat} {ids : List Nat}
  {tokens : List String} {before after : List Symbol}

/-- The next production of a leftmost derivation of tokens is in the cell of the next symbol. -/
theorem exists_mem_get_of_leftmost
    (hf : g.FollowClosed (before ++ .nonTerminal n :: (after ++ [.endOfInput])))
    (hb : Finished before)
    (h : g.leftmost (id :: ids) (before ++ .nonTerminal n :: after) = some (tokens.map .terminal))
    (ht : (tokens.map .terminal ++ [.endOfInput])[before.length]? = some t) :
    ∃ p, ⟨id, p⟩ ∈ T.get n t ∧
      g.leftmost ids (before ++ p.body ++ after) = some (tokens.map .terminal) := by
  obtain ⟨p, hid, rfl, hp⟩ := Grammar.exists_production hb h
  have hin : t.isInput := isInput_of_mem_input (List.mem_of_getElem? ht)
  refine ⟨p, ?_, hp⟩
  rw [List.append_assoc, Grammar.leftmost_behind hb] at hp
  obtain ⟨z, hz, he⟩ := Option.map_eq_some_iff.mp hp
  rw [← he, List.append_assoc, List.getElem?_append_right (Nat.le_refl _), Nat.sub_self,
    ← List.head?_eq_getElem?] at ht
  obtain ⟨rest, hrest⟩ := List.head?_eq_some_iff.mp ht
  have hd : g.Derives (p.body ++ (after ++ [.endOfInput])) (t :: rest) := by
    rw [← hrest, ← List.append_assoc]
    exact (Grammar.derives_of_leftmost hz).append_right [.endOfInput]
  have hpt : t ∈ g.analyse.predict p :=
    hf.of_append.mem_predict (List.mem_of_getElem? hid) (hd.begins (.head hin))
  exact T.mem_get.mpr ⟨hid, rfl, hpt⟩

theorem mem_get_of_expands (T : Table g) (h : g.Expands n id t) :
    id ∈ (T.get n t).map Entry.id := by
  obtain ⟨tokens, read, ids, rest, after, hids, hall, ht⟩ := h
  have hf : g.FollowClosed (read.map .terminal ++ .nonTerminal n :: (after ++ [.endOfInput])) := by
    have hd := (Grammar.derives_of_leftmost hids).append_right [.endOfInput]
    simpa using g.followClosed_start.derives hd
  rw [Grammar.leftmost_ids_append, hids, Option.bind_some] at hall
  have ht' : (tokens.map .terminal ++ [.endOfInput])[(read.map Symbol.terminal).length]? =
      some t := by
    rw [List.length_map]
    exact ht
  obtain ⟨p, hp, -⟩ := exists_mem_get_of_leftmost (T := T) hf (finished_terminals read) hall ht'
  exact List.mem_map.mpr ⟨_, hp, rfl⟩

theorem expands_of_mem_get (hg : ∀ m ∈ g.nonTerminals, g.Reachable m ∧ g.Productive m)
    {e : Entry} (he : e ∈ T.get n t) : g.Expands n e.id t := by
  obtain ⟨hid, rfl, ht⟩ := T.mem_get.mp he
  exact Grammar.expands_of_predict (fun m hm => (hg m hm).1) (fun m hm => (hg m hm).2) hid ht
    (Analysis.isInput_of_mem_predict ht)

theorem expands_of_conflict (hg : ∀ m ∈ g.nonTerminals, g.Reachable m ∧ g.Productive m) {c : Cell}
    (hc : c ∈ T.conflicts) : ∃ id ∈ c.ids, ∃ id' ∈ c.ids, id ≠ id' ∧
      g.Expands c.nonTerminal id c.lookahead ∧ g.Expands c.nonTerminal id' c.lookahead := by
  obtain ⟨e, he, e', he', hne⟩ := exists_ids_of_conflict hc
  obtain ⟨-, hentries, -⟩ := mem_conflicts_iff.mp hc
  refine ⟨e.id, List.mem_map_of_mem he, e'.id, List.mem_map_of_mem he', hne, ?_, ?_⟩
  · rw [hentries] at he
    exact expands_of_mem_get hg he
  · rw [hentries] at he'
    exact expands_of_mem_get hg he'

/-- Every production that some leftmost derivation of a sentence needs is in the cell of the symbol
that comes next. Where all non-terminals are reachable and productive, the cells hold nothing else,
and so two derivations of sentences stand behind every conflict. -/
theorem get_exact (T : Table g) :
    (∀ n id t, g.Expands n id t → id ∈ (T.get n t).map Entry.id) ∧
    ((∀ m ∈ g.nonTerminals, g.Reachable m ∧ g.Productive m) →
      (∀ n id t, id ∈ (T.get n t).map Entry.id ↔ g.Expands n id t) ∧
      ∀ c ∈ T.conflicts, ∃ id ∈ c.ids, ∃ id' ∈ c.ids, id ≠ id' ∧
        g.Expands c.nonTerminal id c.lookahead ∧ g.Expands c.nonTerminal id' c.lookahead) := by
  refine ⟨fun n id t => T.mem_get_of_expands, ?_⟩
  intro hg
  constructor
  · intro n id t
    constructor
    · intro h
      obtain ⟨e, he, rfl⟩ := List.mem_map.mp h
      exact expands_of_mem_get hg he
    · exact T.mem_get_of_expands
  · intro c hc
    exact expands_of_conflict hg hc

theorem get_exact_brackets :
    (∀ m ∈ brackets.nonTerminals, brackets.Reachable m ∧ brackets.Productive m) ∧
      brackets.Expands "S" 1 (.terminal "c") ∧ brackets.Expands "S" 2 (.terminal "c") ∧
      ¬ brackets.Expands "A" 4 .endOfInput := by
  have hs : brackets.Derives [.nonTerminal "S"] [.nonTerminal "A", .terminal "b"] :=
    Grammar.derives_body (p := ⟨"S", [.nonTerminal "A", .terminal "b"]⟩) (by decide)
  have hc : brackets.Derives [.nonTerminal "S"] [.terminal "c"] :=
    Grammar.derives_body (p := ⟨"S", [.terminal "c"]⟩) (by decide)
  have ha : brackets.Derives [.nonTerminal "A"] [] :=
    Grammar.derives_body (p := ⟨"A", [.epsilon]⟩) (by decide)
  have hg : ∀ m ∈ brackets.nonTerminals, brackets.Reachable m ∧ brackets.Productive m := by
    intro m hm
    obtain rfl | hm := List.mem_cons.mp hm
    · exact ⟨⟨[], [], .refl⟩, ["c"], hc⟩
    · obtain rfl := List.mem_singleton.mp hm
      exact ⟨⟨[], [.terminal "b"], hs⟩, [], ha⟩
  obtain ⟨hiff, -⟩ := (get_exact brackets.table).2 hg
  refine ⟨hg, (hiff "S" 1 (.terminal "c")).mp ?_, (hiff "S" 2 (.terminal "c")).mp ?_, ?_⟩
  · decide +kernel
  · decide +kernel
  · rw [← hiff]
    decide +kernel

end Table

end Predictive
