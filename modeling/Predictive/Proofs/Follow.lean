import Predictive.Analysis.Basic
import Predictive.Proofs.Derivation

namespace Predictive.Grammar

variable {g : Grammar} {s t : Symbol} {n : String} {l m before after : List Symbol} {p : Production}

/-- What can begin behind a declared non-terminal is in its FOLLOW set. -/
inductive FollowClosed (g : Grammar) : List Symbol → Prop
  | nil : FollowClosed g []
  | cons {first rest} : (∀ n t, first = .nonTerminal n → n ∈ g.nonTerminals → g.Begins t rest →
      t ∈ g.analyse.follow n) → FollowClosed g rest → FollowClosed g (first :: rest)

namespace FollowClosed

theorem tail (h : g.FollowClosed (s :: l)) : g.FollowClosed l := by
  cases h with
  | cons _ h => exact h

theorem mem_follow (h : g.FollowClosed (.nonTerminal n :: l)) (hn : n ∈ g.nonTerminals)
    (ht : g.Begins t l) : t ∈ g.analyse.follow n := by
  cases h with
  | cons h _ => exact h n t rfl hn ht

theorem of_append (h : g.FollowClosed (l ++ m)) : g.FollowClosed m := by
  induction l with
  | nil => exact h
  | cons s l ih => exact ih h.tail

/-- The induction is on what is left of the right side; behind its last symbol stands what stood
behind the left side. -/
theorem expand_rest (hp : p ∈ g.productions) (h : g.FollowClosed (.nonTerminal p.left :: l))
    {u rest : List Symbol} (hr : p.right = u ++ rest) :
    g.FollowClosed (withoutEpsilon rest ++ l) := by
  induction rest generalizing u with
  | nil => exact h.tail
  | cons s rest ih =>
    have hrest : g.FollowClosed (withoutEpsilon rest ++ l) :=
      ih (u := u ++ [s]) (by rw [hr, List.append_assoc, List.singleton_append])
    by_cases he : s = .epsilon
    · rw [he, withoutEpsilon_epsilon]
      exact hrest
    · rw [withoutEpsilon_cons he, List.cons_append]
      apply FollowClosed.cons _ hrest
      intro n t hs hn ht
      rw [hs] at hr
      rw [begins_append, begins_withoutEpsilon, vanishes_withoutEpsilon] at ht
      apply Analysis.mem_follow hp hr hn
      obtain ht | ⟨hv, ht⟩ := ht
      · exact .inl ht
      · exact .inr ⟨hv, h.mem_follow (g.left_declared p hp) ht⟩

theorem expand (hp : p ∈ g.productions) (h : g.FollowClosed (.nonTerminal p.left :: l)) :
    g.FollowClosed (p.body ++ l) :=
  h.expand_rest hp (u := []) rfl

theorem produces (h : g.FollowClosed l) (hs : g.Produces l m) : g.FollowClosed m := by
  obtain ⟨p, hp, before, after, rfl, rfl⟩ := hs
  induction before with
  | nil => exact h.expand hp
  | cons s before ih =>
    have hrest := ih h.tail
    apply FollowClosed.cons _ hrest
    intro n t hs hn ht
    subst hs
    have hstep : g.Produces (before ++ .nonTerminal p.left :: after) (before ++ p.body ++ after) :=
      ⟨p, hp, before, after, rfl, rfl⟩
    exact h.mem_follow hn (hstep.begins ht)

theorem derives (h : g.FollowClosed l) (hd : g.Derives l m) : g.FollowClosed m := by
  induction hd with
  | refl => exact h
  | tail _ hs ih => exact ih.produces hs

/-- A production that can be applied in front of such a sequence is predicted by whatever its
application makes the sequence begin with. -/
theorem mem_predict (h : g.FollowClosed (.nonTerminal p.left :: l)) (hp : p ∈ g.productions)
    (hb : g.Begins t (p.body ++ l)) : t ∈ g.analyse.predict p := by
  rw [begins_append, Production.body, begins_withoutEpsilon, vanishes_withoutEpsilon] at hb
  rw [Analysis.mem_predict_iff]
  obtain hb | ⟨hv, hb⟩ := hb
  · exact .inl hb
  · exact .inr ⟨hv, h.mem_follow (g.left_declared p hp) hb⟩

end FollowClosed

theorem endOfInput_mem_follow_start (g : Grammar) : .endOfInput ∈ g.analyse.follow g.start := by
  apply Saturation.run_induction (S := FollowSets.growing (g.first g.nullable.state).state)
    (P := fun f => .endOfInput ∈ f.sets.getD g.start ∅)
  · simp only [FollowSets.start, Family.getD_set, g.start_declared, and_self, if_true,
      SymbolSet.mem_ofList, List.mem_singleton]
  · intro o f e f' hf hv
    obtain ⟨-, h⟩ := FollowSets.grow_eq_some.mp hv
    obtain ⟨rfl, rfl⟩ := Prod.mk.inj h
    simp only [FollowSets.enlarge, Family.getD_set]
    split
    · next hn => exact SymbolSet.mem_union.mpr (.inl (hn.1 ▸ hf))
    · exact hf

theorem followClosed_singleton (g : Grammar) (s : Symbol) : g.FollowClosed [s] := by
  apply FollowClosed.cons _ .nil
  intro n t _ _ ht
  exact absurd ht not_begins_nil

theorem followClosed_start (g : Grammar) :
    g.FollowClosed [.nonTerminal g.start, .endOfInput] := by
  apply FollowClosed.cons _ (followClosed_singleton g _)
  intro n t hs _ ht
  obtain rfl := Symbol.nonTerminal.inj hs
  cases ht with
  | head _ => exact endOfInput_mem_follow_start g
  | skip _ ht => exact absurd ht not_begins_nil

/-- What derivations put right behind a non-terminal; the end of the input stands behind all that
the start symbol derives. -/
def Follows (g : Grammar) (n : String) : Symbol → Prop
  | .terminal t => ∃ m ∈ g.nonTerminals, ∃ before after,
      g.Derives [.nonTerminal m] (before ++ .nonTerminal n :: .terminal t :: after)
  | .endOfInput => ∃ before, g.Derives [.nonTerminal g.start] (before ++ [.nonTerminal n])
  | .nonTerminal _ | .epsilon => False

theorem mem_follow_of_follows (hn : n ∈ g.nonTerminals) (h : g.Follows n t) :
    t ∈ g.analyse.follow n := by
  cases t with
  | terminal t =>
    obtain ⟨m, _, before, after, hd⟩ := h
    have hc := ((followClosed_singleton g (.nonTerminal m)).derives hd).of_append
    exact hc.mem_follow hn (.head rfl)
  | endOfInput =>
    obtain ⟨before, hd⟩ := h
    have hd' : g.Derives [.nonTerminal g.start, .endOfInput]
        (before ++ [.nonTerminal n, .endOfInput]) := by
      simpa using hd.append_right [.endOfInput]
    have hc := ((followClosed_start g).derives hd').of_append
    exact hc.mem_follow hn (.head rfl)
  | nonTerminal _ | epsilon => exact h.elim

theorem body_eq {done rest : List Symbol} (hr : p.right = done ++ .nonTerminal n :: rest) :
    p.body = withoutEpsilon done ++ .nonTerminal n :: withoutEpsilon rest := by
  rw [Production.body, hr, withoutEpsilon_append, withoutEpsilon_cons (by simp)]

theorem exists_derives_of_vanishes {done rest : List Symbol} (hp : p ∈ g.productions)
    (hr : p.right = done ++ .nonTerminal n :: rest) (hv : g.Vanishes rest)
    (h : g.Derives l (before ++ .nonTerminal p.left :: after)) :
    ∃ before', g.Derives l (before' ++ .nonTerminal n :: after) := by
  have hx := derives_expand hp before after
  have hn := (derives_nil_of_vanishes hv).context
    (before ++ withoutEpsilon done ++ [.nonTerminal n]) after
  rw [body_eq hr] at hx
  refine ⟨before ++ withoutEpsilon done, h.trans (hx.trans ?_)⟩
  simpa using hn

theorem follows_of_vanishes {done rest : List Symbol} (hp : p ∈ g.productions)
    (hr : p.right = done ++ .nonTerminal n :: rest) (hv : g.Vanishes rest)
    (h : g.Follows p.left t) : g.Follows n t := by
  cases t with
  | terminal t =>
    obtain ⟨m, hm, before, after, hd⟩ := h
    obtain ⟨before', hd'⟩ := exists_derives_of_vanishes hp hr hv hd
    exact ⟨m, hm, before', after, hd'⟩
  | endOfInput =>
    obtain ⟨before, hd⟩ := h
    exact exists_derives_of_vanishes hp hr hv hd
  | nonTerminal _ | epsilon => exact h.elim

theorem endOfInput_mem_of_begins (h : g.Begins .endOfInput l) : .endOfInput ∈ l := by
  induction h with
  | head _ => exact List.mem_cons_self
  | expand hp _ ih => exact absurd ih (endOfInput_notMem_right hp)
  | skip _ _ ih => exact .tail _ ih

theorem follows_of_begins {done rest : List Symbol} (hp : p ∈ g.productions)
    (hr : p.right = done ++ .nonTerminal n :: rest) (hb : g.Begins t rest) : g.Follows n t := by
  cases t with
  | terminal t =>
    obtain ⟨after, ha⟩ := exists_derives_of_begins hb
    have hx := derives_body hp
    rw [body_eq hr] at hx
    have ha' := ha.append_left (withoutEpsilon done ++ [.nonTerminal n])
    refine ⟨p.left, g.left_declared p hp, withoutEpsilon done, after, hx.trans ?_⟩
    simpa using ha'
  | endOfInput =>
    have hrest := endOfInput_mem_of_begins hb
    have hm : .endOfInput ∈ p.right := by
      rw [hr]
      exact List.mem_append_right done (.tail _ hrest)
    exact absurd hm (endOfInput_notMem_right hp)
  | nonTerminal _ | epsilon => exact absurd (isInput_of_begins hb) Bool.false_ne_true

/-- Every visit of the saturation adds only what some derivation shows. -/
theorem follows_of_mem_follow (h : t ∈ g.analyse.follow n) : g.Follows n t := by
  refine Saturation.run_induction (S := FollowSets.growing (g.first g.nullable.state).state)
    (P := fun f => ∀ n t, t ∈ f.sets.getD n ∅ → g.Follows n t) ?_ ?_ n t h
  · intro n t ht
    simp only [FollowSets.start, Family.getD_set, Family.getD_const] at ht
    split at ht
    · next hn =>
      rw [SymbolSet.mem_ofList, List.mem_singleton] at ht
      rw [hn.1, ht]
      exact ⟨[], .refl⟩
    · exact absurd ht SymbolSet.notMem_empty
  · intro o f e f' hf hv n t ht
    obtain ⟨-, h⟩ := FollowSets.grow_eq_some.mp hv
    obtain ⟨rfl, rfl⟩ := Prod.mk.inj h
    obtain ⟨p, hp, hl, done, hr⟩ := mem_occurrences.mp o.2
    simp only [FollowSets.enlarge, Family.getD_set] at ht
    split at ht
    · next hn =>
      rw [hn.1]
      rw [SymbolSet.mem_union, FollowSets.mem_addition] at ht
      obtain ht | ht | ⟨hnull, -, ht⟩ := ht
      · exact hf _ t ht
      · exact follows_of_begins hp hr (mem_first_iff.mp ht)
      · rw [← hl] at ht
        exact follows_of_vanishes hp hr (all_isNullable_iff.mp hnull) (hf _ t ht)
    · exact hf n t ht

theorem mem_follow_iff (hn : n ∈ g.nonTerminals) : t ∈ g.analyse.follow n ↔ g.Follows n t :=
  ⟨follows_of_mem_follow, mem_follow_of_follows hn⟩

theorem follow?_eq_none_iff : g.analyse.follow? n = none ↔ n ∉ g.nonTerminals := by
  rw [← Family.isSome_get? (f := g.analyse.followRun.state.sets), Option.not_isSome_iff_eq_none]
  rfl

theorem follow?_eq_some (hn : n ∈ g.nonTerminals) :
    g.analyse.follow? n = some (g.analyse.follow n) := by
  obtain ⟨set, hset⟩ := Family.exists_get? g.analyse.followRun.state.sets hn
  rw [Analysis.follow, Family.getD, hset, Option.getD_some]
  exact hset

/-- Some sequence derived from the start symbol holds the non-terminal. -/
def Reachable (g : Grammar) (n : String) : Prop :=
  ∃ before after, g.Derives [.nonTerminal g.start] (before ++ .nonTerminal n :: after)

/-- From a reachable non-terminal nothing is seen that the start symbol does not show. -/
theorem follows_terminal_iff (hr : ∀ m ∈ g.nonTerminals, g.Reachable m) {t : String} :
    g.Follows n (.terminal t) ↔ ∃ before after,
      g.Derives [.nonTerminal g.start] (before ++ .nonTerminal n :: .terminal t :: after) := by
  constructor
  · rintro ⟨m, hm, before, after, hd⟩
    obtain ⟨u, v, hu⟩ := hr m hm
    have hm' := hd.context u v
    refine ⟨u ++ before, after ++ v, hu.trans ?_⟩
    simpa using hm'
  · rintro ⟨before, after, hd⟩
    exact ⟨g.start, g.start_declared, before, after, hd⟩

theorem terminal_or_end_of_follows (h : g.Follows n t) :
    t = .endOfInput ∨ ∃ name, t = .terminal name := by
  cases t with
  | terminal name => exact .inr ⟨name, rfl⟩
  | endOfInput => exact .inl rfl
  | nonTerminal _ | epsilon => exact h.elim

/-- A declared non-terminal has the FOLLOW set that the derivations of the grammar give it: the
terminals that stand right behind it in anything derived from a declared non-terminal, and the end
of the input if it can come last in what the start symbol derives. -/
theorem follow?_exact (g : Grammar) (n : String) :
    (g.analyse.follow? n = none ↔ n ∉ g.nonTerminals) ∧
    (n ∈ g.nonTerminals → ∃ set, g.analyse.follow? n = some set ∧
      (∀ t, .terminal t ∈ set ↔ ∃ m ∈ g.nonTerminals, ∃ before after,
        g.Derives [.nonTerminal m] (before ++ .nonTerminal n :: .terminal t :: after)) ∧
      (.endOfInput ∈ set ↔
        ∃ before, g.Derives [.nonTerminal g.start] (before ++ [.nonTerminal n])) ∧
      (∀ s ∈ set.toList, s = .endOfInput ∨ ∃ t, s = .terminal t) ∧
      ((∀ m ∈ g.nonTerminals, g.Reachable m) → ∀ t, .terminal t ∈ set ↔ ∃ before after,
        g.Derives [.nonTerminal g.start] (before ++ .nonTerminal n :: .terminal t :: after))) := by
  refine ⟨follow?_eq_none_iff, ?_⟩
  intro hn
  refine ⟨g.analyse.follow n, follow?_eq_some hn, ?_, ?_, ?_, ?_⟩
  · intro t
    exact mem_follow_iff hn
  · exact mem_follow_iff hn
  · intro s hs
    apply terminal_or_end_of_follows (n := n)
    exact follows_of_mem_follow hs
  · intro hr t
    rw [mem_follow_iff hn]
    exact follows_terminal_iff hr

end Predictive.Grammar
