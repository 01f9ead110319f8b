import TableLexer.Automaton.Basic
import TableLexer.Rule.Basic

/-!
# Tables under construction

A draft collects the rows of a table while rules are applied to it. Rows appear with the states that
edges leave; the states that edges only reach get theirs when the automaton is built.
-/

namespace TableLexer

/-- A table to which rules are being applied. -/
structure Draft where
  /-- The rows so far. -/
  table : Table
  /-- How many rows the states of the applied rules need. -/
  bound : Nat

namespace Draft

/-- The draft to which nothing has been applied. -/
def empty : Draft := ⟨#[], 0⟩

/-- Applies a rule to the row of its source. -/
def apply (draft : Draft) (rule : Rule) : Draft where
  table := draft.table.modifyRow rule.source rule.applyTo
  bound := max draft.bound (max rule.source.toNat rule.target.toNat + 1)

/-- Adds one edge, unless its place is taken. The row of the source is created in any case; the
target is not made sure to have one, so a table can turn out to be too small for it. -/
def add (draft : Draft) (source code : State) (b : UInt8) : Draft :=
  { draft with table := draft.table.modifyRow source fun row => row.add b code }

/-- The automaton of a draft: all states of its rules and all accepting states get rows. -/
def build (draft : Draft) (acceptance : Acceptance) : Except TableError Automaton :=
  Automaton.ofTable (draft.table.pad draft.bound) acceptance

/-- A rule acts on the row of its source. -/
theorem row_apply (draft : Draft) (rule : Rule) (state : State) :
    (draft.apply rule).table.row state =
      if rule.source = state then rule.applyTo (draft.table.row state)
      else draft.table.row state :=
  Table.row_modifyRow draft.table rule.source state rule.applyTo

/-- A single edge is added to the row of its source. -/
theorem row_add (draft : Draft) (source code : State) (b : UInt8) (state : State) :
    (draft.add source code b).table.row state =
      if source = state then (draft.table.row state).add b code else draft.table.row state :=
  Table.row_modifyRow draft.table source state fun row => row.add b code

end Draft

/-- The automaton of a list of rules, applied in order. -/
def Automaton.ofRules (rules : List Rule) (acceptance : Acceptance) :
    Except TableError Automaton :=
  (rules.foldl Draft.apply Draft.empty).build acceptance

/-- Rules that build give the automaton that can be taken out of the result. -/
theorem Automaton.ofRules_eq_get {rules : List Rule} {acceptance : Acceptance}
    (h : (ofRules rules acceptance).toOption.isSome) :
    ofRules rules acceptance = .ok ((ofRules rules acceptance).toOption.get h) := by
  revert h
  generalize ofRules rules acceptance = built
  intro h
  cases built with
  | error e => cases h
  | ok a => rfl

end TableLexer
