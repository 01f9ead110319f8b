import TableLexer.Category
import TableLexer.Table.Row

/-!
# Failures of tables and of questions to them

A table can be wrong in two ways: an edge may leave it, and a state may be claimed by two
categories. A question to an automaton fails where the table holds nothing.
-/

namespace TableLexer

/-- What a failure is told as does not matter to a success. -/
theorem mapError_eq_ok_iff {ε ε' α : Type} {result : Except ε α} {tell : ε → ε'} {value : α} :
    result.mapError tell = .ok value ↔ result = .ok value := by
  cases result with
  | error e =>
    constructor
    · intro h
      cases h
    · intro h
      cases h
  | ok found =>
    constructor
    · intro h
      rw [Except.ok.inj h]
    · intro h
      rw [Except.ok.inj h]
      rfl

/-- What is wrong with a table. -/
inductive TableError where
  /-- A state is listed for two categories. -/
  | overlap (state : State) (first second : Category)
  /-- An edge leads to a state that has no row. -/
  | outOfRange (source target last : State)
  deriving DecidableEq, Repr

/-- The text of a fault of a table. -/
def TableError.message : TableError → String
  | .overlap state first second =>
    s!"state {state} is classified as both {first.name} and {second.name}"
  | .outOfRange source target last =>
    s!"state {source} has an edge to state {target}, past the last state {last}"

/-- What an automaton does not know. -/
inductive LookupError where
  /-- A state has no edge on a byte. -/
  | noTransition (state : State) (byte : UInt8)
  /-- A state has no category. -/
  | unclassified (state : State)
  deriving DecidableEq, Repr

/-- A byte in two upper-case hexadecimal digits. -/
def hexByte (b : UInt8) : String :=
  String.ofList ([b.toNat / 16, b.toNat % 16].map fun digit => (Nat.digitChar digit).toUpper)

/-- The text of a question without an answer. -/
def LookupError.message : LookupError → String
  | .noTransition state byte => s!"no transition from state {state} on byte 0x" ++ hexByte byte
  | .unclassified state => s!"state {state} is not a final state"

end TableLexer
