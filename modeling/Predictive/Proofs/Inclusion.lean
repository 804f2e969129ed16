import Predictive.Proofs.First
import Predictive.Proofs.Follow
import Predictive.Table.Basic

namespace Predictive

namespace Grammar

variable {g g' : Grammar} {l m : List Symbol} {n : String} {t : Symbol} {p : Production}

/-- The rules of `g` are rules of `g'`, which begins with the same symbol. -/
structure IncludedIn (g g' : Grammar) : Prop where
  start : g.start = g'.start
  nonTerminals : ∀ n ∈ g.nonTerminals, n ∈ g'.nonTerminals
  productions : ∀ p ∈ g.productions, p ∈ g'.productions

namespace IncludedIn

theorem produces (h : g.IncludedIn g') (hs : g.Produces l m) : g'.Produces l m := by
  obtain ⟨p, hp, hrest⟩ := hs
  exact ⟨p, h.productions p hp, hrest⟩

theorem derives (h : g.IncludedIn g') (hd : g.Derives l m) : g'.Derives l m :=
  hd.lift id fun _ _ => h.produces

theorem vanishes (h : g.IncludedIn g') (hv : g.Vanishes l) : g'.Vanishes l := by
  rw [vanishes_iff_derives] at hv ⊢
  exact h.derives hv

theorem begins (h : g.IncludedIn g') (hb : g.Begins t l) : g'.Begins t l := by
  rw [begins_iff_derives] at hb ⊢
  obtain ⟨ht, rest, hd⟩ := hb
  exact ⟨ht, rest, h.derives hd⟩

theorem sentence (h : g.IncludedIn g') {tokens : List String} (hs : g.Sentence tokens) :
    g'.Sentence tokens := by
  rw [Sentence, ← h.start]
  exact h.derives hs

theorem follows (h : g.IncludedIn g') (hf : g.Follows n t) : g'.Follows n t := by
  cases t with
  | terminal t =>
    obtain ⟨m, hm, before, after, hd⟩ := hf
    exact ⟨m, h.nonTerminals m hm, before, after, h.derives hd⟩
  | endOfInput =>
    obtain ⟨before, hd⟩ := hf
    rw [Follows, ← h.start]
    exact ⟨before, h.derives hd⟩
  | nonTerminal _ | epsilon => exact hf

theorem follow_subset (h : g.IncludedIn g') (hn : n ∈ g.nonTerminals) :
    g.analyse.follow n ⊆ g'.analyse.follow n := by
  intro t ht
  rw [mem_follow_iff hn] at ht
  exact (mem_follow_iff (h.nonTerminals n hn)).mpr (h.follows ht)

theorem mem_predict (h : g.IncludedIn g') (hp : p ∈ g.productions)
    (ht : t ∈ g.analyse.predict p) : t ∈ g'.analyse.predict p := by
  rw [Analysis.mem_predict_iff] at ht ⊢
  obtain hb | ⟨hv, hf⟩ := ht
  · exact .inl (h.begins hb)
  · exact .inr ⟨h.vanishes hv, h.follow_subset (g.left_declared p hp) t hf⟩

/-- An entry of a cell stays in it, be it under another number. -/
theorem mem_get (h : g.IncludedIn g') {T : Table g} {T' : Table g'} {e : Entry}
    (he : e ∈ T.get n t) {id : Nat} (hid : g'.productions[id]? = some e.production) :
    ⟨id, e.production⟩ ∈ T'.get n t := by
  obtain ⟨hold, hn, ht⟩ := T.mem_get.mp he
  exact T'.mem_get.mpr ⟨hid, hn, h.mem_predict (List.mem_of_getElem? hold) ht⟩

end IncludedIn

end Grammar

theorem First.ext {a b : First} (hs : a.symbols = b.symbols) (hn : a.nullable = b.nullable) :
    a = b := by
  cases a
  cases b
  cases hs
  cases hn
  rfl

namespace Analysis

variable {g g' : Grammar} {l : List Symbol}

/-- What a sequence can begin with is told by derivations alone. -/
theorem first_congr (hv : g.Vanishes l ↔ g'.Vanishes l) (hb : ∀ t, g.Begins t l ↔ g'.Begins t l) :
    g.analyse.first l = g'.analyse.first l := by
  apply First.ext
  · apply SymbolSet.ext
    intro t
    rw [mem_first_iff, mem_first_iff, hb]
  · rw [Bool.eq_iff_iff, nullable_first_iff, nullable_first_iff, hv]

theorem firstOfSymbol_congr {s : Symbol} (hv : g.Vanishes [s] ↔ g'.Vanishes [s])
    (hb : ∀ t, g.Begins t [s] ↔ g'.Begins t [s]) :
    g.analyse.firstOfSymbol s = g'.analyse.firstOfSymbol s := by
  rw [← first_singleton, ← first_singleton]
  exact first_congr hv hb

end Analysis

end Predictive
