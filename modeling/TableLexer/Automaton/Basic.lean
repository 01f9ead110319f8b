import TableLexer.Acceptance
import TableLexer.Table.Basic

/-!
# Automata

An automaton is a table of rows together with its accepting states. The structure is closed: every
edge leads to a state that has a row, every accepting state has a row, and the category of each
state is the one that the accepting states give. `Automaton.ofTable` builds one from any table: it
adds the missing rows of accepting states, and tells what is wrong with the table otherwise.
-/

namespace TableLexer

/-- A table whose edges stay within it, with a category for each accepting state. -/
structure Automaton where
  /-- The rows of the states. -/
  table : Table
  /-- The accepting states, as they were listed. -/
  acceptance : Acceptance
  /-- The category of each state, or none for a state that accepts nothing. -/
  categories : Array (Option Category)
  /-- Every edge leads to a state with a row. -/
  target_lt : ∀ row ∈ table, ∀ b target, row.next? b = some target → target.toNat < table.size
  /-- Every accepting state has a row. -/
  bound_le : acceptance.bound ≤ table.size
  /-- The categories are those of the accepting states. -/
  categories_eq : acceptance.categoryTable table.size = .ok categories
  deriving DecidableEq

namespace Automaton

/-- The automaton of a table and its accepting states. Edges are checked before overlaps. -/
def ofTable (given : Table) (acceptance : Acceptance) : Except TableError Automaton :=
  let table := given.pad acceptance.bound
  match hstray : table.strayEdge? with
  | some e => .error e
  | none =>
    match hcategories : acceptance.categoryTable table.size with
    | .error e => .error e
    | .ok categories =>
      .ok {
        table, acceptance, categories
        target_lt := Table.target_lt_of_strayEdge?_eq_none hstray
        bound_le := by simp only [table, Table.size_pad]; omega
        categories_eq := hcategories }

/-- How many states an automaton has: one more than the number of its last state. -/
def size (a : Automaton) : Nat := a.table.size

/-- The target of the edge of a state on a byte. -/
def next? (a : Automaton) (state : State) (b : UInt8) : Option State := (a.table.row state).next? b

/-- The category that a state accepts. -/
def category? (a : Automaton) (state : State) : Option Category :=
  a.categories.getD state.toNat none

/-- Whether a state accepts. -/
def accepts (a : Automaton) (state : State) : Bool := (a.category? state).isSome

/-- The target of the edge of a state on a byte, or that there is no such edge. -/
def next (a : Automaton) (state : State) (b : UInt8) : Except LookupError State :=
  match a.next? state b with
  | some target => .ok target
  | none => .error (.noTransition state b)

/-- The category that a state accepts, or that it accepts none. -/
def category (a : Automaton) (state : State) : Except LookupError Category :=
  match a.category? state with
  | some c => .ok c
  | none => .error (.unclassified state)

/-- The edges of a state with their bytes, in ascending order of the bytes. -/
def edges (a : Automaton) (state : State) : List (UInt8 × State) := (a.table.row state).edges

/-- The number of all edges. -/
def edgeCount (a : Automaton) : Nat := (a.table.toList.flatMap Row.edges).length

/-- The answer to a question for an edge is its target. -/
theorem next_eq_ok_iff {a : Automaton} {state target : State} {b : UInt8} :
    a.next state b = .ok target ↔ a.next? state b = some target := by
  unfold next
  cases a.next? state b <;> simp

/-- A question for an edge fails if there is none, and it fails with the state and the byte. -/
theorem next_eq_error_iff {a : Automaton} {state : State} {b : UInt8} :
    a.next state b = .error (.noTransition state b) ↔ a.next? state b = none := by
  unfold next
  cases a.next? state b <;> simp

/-- The answer to a question for a category is the category of the state. -/
theorem category_eq_ok_iff {a : Automaton} {state : State} {c : Category} :
    a.category state = .ok c ↔ a.category? state = some c := by
  unfold category
  cases a.category? state <;> simp

/-- An automaton is determined by its rows and its accepting states. -/
theorem eq_of_table_eq {a b : Automaton} (htable : a.table = b.table)
    (hacceptance : a.acceptance = b.acceptance) : a = b := by
  have hcategories : a.categories = b.categories := by
    have hdetermined := a.categories_eq
    rw [htable, hacceptance, b.categories_eq] at hdetermined
    exact (Except.ok.inj hdetermined).symm
  cases a
  cases b
  simp_all

/-- A table is refused for a stray edge, or else for an overlap. -/
theorem ofTable_eq_error_iff {given : Table} {acceptance : Acceptance} {e : TableError} :
    ofTable given acceptance = .error e ↔
      (given.pad acceptance.bound).strayEdge? = some e ∨
        (given.pad acceptance.bound).strayEdge? = none ∧
          acceptance.categoryTable (given.pad acceptance.bound).size = .error e := by
  simp only [ofTable]
  split
  · next hstray => simp [hstray]
  · next hstray =>
    split
    · next hcategories => simp [hstray, hcategories]
    · next hcategories => simp [hstray, hcategories]

/-- A table without a stray edge and without an overlap gives an automaton. -/
theorem exists_ofTable_iff {given : Table} {acceptance : Acceptance} :
    (∃ a, ofTable given acceptance = .ok a) ↔
      (given.pad acceptance.bound).strayEdge? = none ∧
        ∃ categories,
          acceptance.categoryTable (given.pad acceptance.bound).size = .ok categories := by
  simp only [ofTable]
  split
  · next hstray => simp [hstray]
  · next hstray =>
    split
    · next hcategories => simp [hstray, hcategories]
    · next hcategories => simp [hstray, hcategories]

/-- What `ofTable` builds has the given accepting states, and the given rows with padding. -/
theorem eq_of_ofTable {given : Table} {acceptance : Acceptance} {a : Automaton}
    (h : ofTable given acceptance = .ok a) :
    a.table = given.pad acceptance.bound ∧ a.acceptance = acceptance := by
  simp only [ofTable] at h
  split at h
  · simp at h
  · split at h
    · simp at h
    · cases h
      exact ⟨rfl, rfl⟩

/-- What `ofTable` builds has exactly the given edges. -/
theorem next?_of_ofTable {given : Table} {acceptance : Acceptance} {a : Automaton}
    (h : ofTable given acceptance = .ok a) (state : State) (b : UInt8) :
    a.next? state b = (given.row state).next? b := by
  rw [next?, (eq_of_ofTable h).1, Table.row_pad]

/-- The list of the edges of a state has those on all bytes. -/
theorem mem_edges {a : Automaton} {state target : State} {b : UInt8} :
    (b, target) ∈ a.edges state ↔ a.next? state b = some target := Row.mem_edges

/-- A state with an edge has a row. -/
theorem lt_size_of_next? {a : Automaton} {state target : State} {b : UInt8}
    (h : a.next? state b = some target) : state.toNat < a.size := by
  obtain ⟨row, hrow, -⟩ := Table.exists_getElem?_of_next? h
  exact (Array.getElem?_eq_some_iff.mp hrow).1

/-- Edges stay within the automaton. -/
theorem next?_lt {a : Automaton} {state target : State} {b : UInt8}
    (h : a.next? state b = some target) : target.toNat < a.size := by
  obtain ⟨row, hrow, hedge⟩ := Table.exists_getElem?_of_next? h
  exact a.target_lt row (Array.mem_of_getElem? hrow) b target hedge

end Automaton

end TableLexer
