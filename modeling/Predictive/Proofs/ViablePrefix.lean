import Predictive.Proofs.Completion
import Predictive.Proofs.Invariant
import Predictive.Proofs.Soundness

namespace Predictive

/-- The number of tokens that were read before the rejection. -/
def Rejection.position : Rejection → Nat
  | unexpectedToken _ _ position => position
  | noApplicableProduction _ _ position => position
  | ambiguousDecision _ _ position _ => position
  | trailingInput position => position

namespace Config

variable {g : Grammar} {T : Table g} {c c' c'' : Config}

/-- What has been read since `c`, with the stack of `c'` behind it, is derived from the stack of
`c`. -/
def Reads (g : Grammar) (c c' : Config) : Prop :=
  ∃ read, c.input = read ++ c'.input ∧ c'.position = c.position + read.length ∧
    g.Derives c.stack (read ++ c'.stack)

theorem Reads.refl (c : Config) : c.Reads g c := ⟨[], rfl, rfl, .refl⟩

theorem Reads.trans (h : c.Reads g c') (h' : c'.Reads g c'') : c.Reads g c'' := by
  obtain ⟨read, hi, hp, hd⟩ := h
  obtain ⟨read', hi', hp', hd'⟩ := h'
  refine ⟨read ++ read', ?_, ?_, ?_⟩
  · rw [hi, hi', List.append_assoc]
  · rw [hp', hp, List.length_append, Nat.add_assoc]
  · rw [List.append_assoc]
    exact hd.trans (hd'.append_left read)

theorem reads_advance {s : Symbol} (h : T.action c = .matched s) : c.Reads g c.advance := by
  cases Table.acts_of_action h with
  | matched _ => exact ⟨[s], rfl, rfl, .refl⟩

theorem reads_expand {e : Entry} (h : T.action c = .expand e) : c.Reads g (c.expand e) := by
  cases Table.acts_of_action h with
  | @expand n stack found input position _ he =>
    obtain ⟨hid, rfl⟩ := Table.production_of_get he
    exact ⟨[], rfl, rfl, Grammar.derives_expand (List.mem_of_getElem? hid) [] stack⟩

end Config

namespace Table

variable {g : Grammar} {T : Table g} {c : Config} {reason : Rejection} {tokens : List String}

theorem Acts.position_eq (h : T.Acts c (.halt (.rejected reason))) : c.position = reason.position := by
  cases h with
  | trailing | exhausted | unexpected | noApplicable | ambiguous => rfl

/-- An input is rejected in a configuration that the machine came to from the first one, and there
is something on the stack. -/
theorem exists_rejected (h : T.validate tokens = .rejected reason) :
    ∃ last, (initial g tokens).Reads g last ∧ Delimited last.stack ∧ Delimited last.input ∧
      last.position = reason.position := by
  obtain ⟨last, verdict, ⟨hvalid, hreads⟩, ha, hv⟩ := T.exists_halt_of_kept
    (P := fun c => c.Valid g (tokens.length + 1) ∧ (initial g tokens).Reads g c)
    (fun c s hc hm => ⟨hc.1.advance hm, hc.2.trans (Config.reads_advance hm)⟩)
    (fun c e hc hx => ⟨hc.1.expand hx, hc.2.trans (Config.reads_expand hx)⟩)
    (c := initial g tokens) ⟨valid_initial g tokens, .refl _⟩
  obtain rfl : verdict = .rejected reason := hv.symm.trans h
  have hacts := acts_of_action ha
  obtain ⟨hs, hi⟩ | ⟨hs, hi⟩ := hvalid.marked
  · cases hacts <;> simp at hs hi
  · exact ⟨last, hreads, hs, hi, hacts.position_eq⟩

/-- The tokens that were read, with what stands above the end mark, are derived from the start
symbol. -/
theorem exists_sentential_of_rejected (h : T.validate tokens = .rejected reason) :
    reason.position ≤ tokens.length ∧ ∃ front,
      g.Derives [.nonTerminal g.start] ((tokens.take reason.position).map .terminal ++ front) := by
  obtain ⟨last, ⟨read, hi, hp, hd⟩, hs, hin, hpos⟩ := exists_rejected h
  obtain ⟨front, hfront⟩ := hs.exists_front
  obtain ⟨rest, hrest⟩ := hin.exists_front
  have hlen : reason.position = read.length := by
    rw [← hpos, hp]
    exact Nat.zero_add _
  have hsplit : tokens.map .terminal = read ++ rest := by
    rw [hrest, ← List.append_assoc] at hi
    exact List.append_cancel_right hi
  have hread : (tokens.take reason.position).map .terminal = read := by
    rw [List.map_take, hsplit, hlen, List.take_left]
  have hle : read.length ≤ (tokens.map Symbol.terminal).length := by
    rw [hsplit, List.length_append]
    omega
  rw [hfront, ← List.append_assoc] at hd
  obtain ⟨z, hz, hd⟩ := Grammar.exists_derives_front (l := [.nonTerminal g.start]) (by simp) hd
  obtain rfl : read ++ front = z := List.append_cancel_right hz
  refine ⟨?_, front, ?_⟩
  · rw [hlen]
    simpa using hle
  · rw [hread]
    exact hd

/-- Where every non-terminal derives some tokens, a run never reads past what some sentence begins
with, for whatever reason it rejects its input in the end. -/
theorem exists_sentence_of_rejected (T : Table g) (hg : ∀ n ∈ g.nonTerminals, g.Productive n)
    (tokens : List String) (reason : Rejection) (h : T.validate tokens = .rejected reason) :
    reason.position ≤ tokens.length ∧
      ∃ sentence, g.Sentence sentence ∧ tokens.take reason.position <+: sentence := by
  obtain ⟨hle, front, hd⟩ := exists_sentential_of_rejected h
  refine ⟨hle, ?_⟩
  have hform : g.Sentential ((tokens.take reason.position).map .terminal ++ front) :=
    (Grammar.sentential_nonTerminal g.start_declared).derives hd
  obtain ⟨later, hlater⟩ := (Grammar.sentential_append.mp hform).2.exists_tokens hg
  refine ⟨tokens.take reason.position ++ later, ?_, List.prefix_append _ _⟩
  have hall := hd.trans (hlater.append_left ((tokens.take reason.position).map .terminal))
  rw [← List.map_append] at hall
  exact hall

/-- The cell of `S` for `c` is ambiguous behind the bracket. -/
theorem exists_sentence_of_rejected_brackets :
    (∀ n ∈ brackets.nonTerminals, brackets.Productive n) ∧
      brackets.table.validate ["(", "c", "x"] =
        .rejected (.ambiguousDecision "S" (.terminal "c") 1 [1, 2]) ∧
      ∃ sentence, brackets.Sentence sentence ∧ ["("] <+: sentence := by
  have hc : brackets.Derives [.nonTerminal "S"] [.terminal "c"] :=
    Grammar.derives_body (p := ⟨"S", [.terminal "c"]⟩) (by decide)
  have ha : brackets.Derives [.nonTerminal "A"] [] :=
    Grammar.derives_body (p := ⟨"A", [.epsilon]⟩) (by decide)
  have hg : ∀ n ∈ brackets.nonTerminals, brackets.Productive n := by
    intro n hn
    obtain rfl | hn := List.mem_cons.mp hn
    · exact ⟨["c"], hc⟩
    · obtain rfl := List.mem_singleton.mp hn
      exact ⟨[], ha⟩
  have hv : brackets.table.validate ["(", "c", "x"] =
      .rejected (.ambiguousDecision "S" (.terminal "c") 1 [1, 2]) := by
    apply verdict_of_within (n := 5)
    decide +kernel
  exact ⟨hg, hv, (exists_sentence_of_rejected brackets.table hg _ _ hv).2⟩

end Table

end Predictive
