import Predictive.Analysis.Basic

namespace Predictive

structure Cell where
  nonTerminal : String
  lookahead : Symbol
  entries : List Entry

namespace Cell

def ids (c : Cell) : List Nat := c.entries.map Entry.id

def isConflict (c : Cell) : Bool := 1 < c.entries.length

/-- The texts of the productions of the cell. -/
def texts (c : Cell) : List String := c.entries.map (·.production.text)

end Cell

structure NotLL1 where
  conflicts : List Cell

def NotLL1.message (e : NotLL1) : String :=
  "grammar is not LL(1): " ++ toString e.conflicts.length ++ " conflicting cell(s)"

/-- The cells of one non-terminal that hold a production, by ascending lookahead. -/
abbrev Row := List (Symbol × List Entry)

namespace Analysis

variable {g : Grammar} (A : Analysis g)

def row (name : String) : Row :=
  let predicted := (g.entriesOf name).map fun e => (e, A.predict e.production)
  let lookaheads := predicted.foldl (fun set q => set ∪ q.2) ∅
  lookaheads.toList.map fun t => (t, (predicted.filter (t ∈ ·.2)).map Prod.fst)

def entriesOn (name : String) (t : Symbol) : List Entry :=
  (g.entriesOf name).filter (t ∈ A.predict ·.production)

theorem mem_foldl_union {ps : List (Entry × SymbolSet)} {set : SymbolSet} {t : Symbol} :
    t ∈ ps.foldl (fun set q => set ∪ q.2) set ↔ t ∈ set ∨ ∃ q ∈ ps, t ∈ q.2 := by
  induction ps generalizing set with
  | nil => simp
  | cons q ps ih => simp [ih, or_assoc]

theorem lookup_map {l : List Symbol} {α : Type} {f : Symbol → α} {t : Symbol} :
    (l.map fun s => (s, f s)).lookup t = if t ∈ l then some (f t) else none := by
  induction l with
  | nil => rfl
  | cons s l ih => grind

theorem map_filter_predicted (name : String) (t : Symbol) :
    (((g.entriesOf name).map fun e => (e, A.predict e.production)).filter (t ∈ ·.2)).map Prod.fst =
      A.entriesOn name t := by
  simp [entriesOn, List.filter_map, Function.comp_def]

theorem getD_lookup_row {name : String} {t : Symbol} :
    ((A.row name).lookup t).getD [] = A.entriesOn name t := by
  simp only [row, lookup_map, SymbolSet.mem_toList, mem_foldl_union]
  split
  · exact A.map_filter_predicted name t
  · next h =>
    refine (List.filter_eq_nil_iff.2 fun e he ht => h (.inr ?_)).symm
    exact ⟨_, List.mem_map.2 ⟨e, he, rfl⟩, by simpa using ht⟩

theorem mem_row {name : String} {t : Symbol} {entries : List Entry} :
    (t, entries) ∈ A.row name ↔ entries = A.entriesOn name t ∧ entries ≠ [] := by
  simp only [row, List.mem_map, SymbolSet.mem_toList, mem_foldl_union, SymbolSet.notMem_empty,
    false_or, map_filter_predicted, Prod.mk.injEq]
  constructor
  · rintro ⟨_, ⟨_, ⟨e, he, rfl⟩, ht⟩, rfl, rfl⟩
    exact ⟨rfl, List.ne_nil_of_mem (List.mem_filter.2 ⟨he, by simpa using ht⟩)⟩
  · rintro ⟨rfl, hne⟩
    obtain ⟨e, he⟩ := List.exists_mem_of_ne_nil _ hne
    obtain ⟨he, ht⟩ := List.mem_filter.1 he
    exact ⟨t, ⟨_, ⟨e, he, rfl⟩, by simpa using ht⟩, rfl, rfl⟩

end Analysis

/-- The predictive table of a grammar. -/
structure Table (g : Grammar) where
  analysis : Analysis g
  rows : Family g.nonTerminals Row
  analysis_eq : analysis = g.analyse
  rows_eq : rows = .ofFn g.nonTerminals analysis.row

def Grammar.table (g : Grammar) : Table g :=
  let A := g.analyse
  ⟨A, .ofFn g.nonTerminals A.row, rfl, rfl⟩

namespace Table

variable {g : Grammar} (T : Table g)

/-- The cell of a non-terminal and a lookahead; it is empty when nothing applies. -/
def get (name : String) (lookahead : Symbol) : List Entry :=
  ((T.rows.getD name []).lookup lookahead).getD []

def columns (_ : Table g) : List Symbol := g.terminals.map .terminal ++ [.endOfInput]

/-- The cells that are not empty, row by row. -/
def cells : List Cell :=
  T.rows.entries.flatMap fun (name, row) => row.map fun (t, entries) => ⟨name, t, entries⟩

def conflicts : List Cell := T.cells.filter Cell.isConflict

def isLL1 : Bool := T.cells.all fun c => !c.isConflict

def ensureLL1 : Except NotLL1 Unit :=
  if T.conflicts.isEmpty then .ok () else .error ⟨T.conflicts⟩

theorem get_eq (name : String) (t : Symbol) :
    T.get name t = if name ∈ g.nonTerminals then T.analysis.entriesOn name t else [] := by
  rw [get, T.rows_eq, Family.getD, Family.get?_ofFn]
  split
  · exact T.analysis.getD_lookup_row
  · rfl

theorem mem_get {name : String} {t : Symbol} {e : Entry} : e ∈ T.get name t ↔
    g.productions[e.id]? = some e.production ∧ e.production.left = name ∧
      t ∈ g.analyse.predict e.production := by
  rw [get_eq, T.analysis_eq]
  constructor
  · intro h
    split at h
    · simpa [Analysis.entriesOn, Grammar.mem_entriesOf, and_assoc] using h
    · exact absurd h List.not_mem_nil
  · rintro ⟨he, rfl, ht⟩
    rw [if_pos (g.left_declared _ (List.mem_of_getElem? he))]
    simpa [Analysis.entriesOn, Grammar.mem_entriesOf, and_assoc] using ⟨he, ht⟩

end Table

namespace Grammar

/-- The texts of the numbered productions; a number that is too large has none. -/
def productionTexts? (g : Grammar) (ids : List Nat) : Option (List String) :=
  ids.mapM fun id => g.productions[id]?.map Production.text

end Grammar

end Predictive
