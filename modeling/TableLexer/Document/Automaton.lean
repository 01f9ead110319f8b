import TableLexer.Automaton.Basic
import TableLexer.Document.Acceptance

/-!
# Automata in documents

An automaton is a record of its rows and its accepting states. A row is the list of the codes in its
256 cells. Categories are not written: they follow from the accepting states, and a table that is
read is checked like any other.
-/

namespace TableLexer

/-- The row of a value. -/
def Row.ofJson? (value : Json.Value) : Option Row := do
  let codes ← value.words?
  if h : codes.length = 256 then
    return ⟨⟨codes.toArray, by simp [h]⟩⟩
  else
    none

/-- The value of a row. -/
def Row.toJson (row : Row) : Json.Value := .ofWords row.cells.toList

/-- The value of a row is read back as the row. -/
theorem Row.ofJson?_toJson (row : Row) : Row.ofJson? row.toJson = some row := by
  have hlength : row.cells.toList.length = 256 := by simp
  simp only [ofJson?, toJson, Json.Value.words?_ofWords, Option.bind_eq_bind, Option.bind_some,
    dif_pos hlength]
  rfl

namespace Automaton

/-- The rows and the accepting states of a value. -/
def tableOfJson? (value : Json.Value) : Option (List Row × Acceptance) := do
  match ← value.record? ["rows", "finals"] with
  | [some (.array rows), some acceptance] =>
    return (← rows.mapM Row.ofJson?, ← Acceptance.ofJson? acceptance)
  | _ => none

/-- The automaton of a document. -/
def ofDocument (document : List UInt8) : Except DocumentError Automaton :=
  match (Json.read? document).bind tableOfJson? with
  | none => .error .malformedAutomaton
  | some (rows, acceptance) => (ofTable rows.toArray acceptance).mapError .invalid

/-- A document gives the automaton of its rows and its accepting states, if it has them. -/
theorem ofDocument_eq_ok_iff {document : List UInt8} {a : Automaton} :
    ofDocument document = .ok a ↔
      ∃ rows acceptance, (Json.read? document).bind tableOfJson? = some (rows, acceptance) ∧
        ofTable rows.toArray acceptance = .ok a := by
  unfold ofDocument
  cases (Json.read? document).bind tableOfJson? with
  | none => simp
  | some read =>
    obtain ⟨rows, acceptance⟩ := read
    simp only [Option.some.injEq, Prod.mk.injEq, and_assoc, exists_and_left, exists_eq_left']
    exact mapError_eq_ok_iff

/-- The value of an automaton. -/
def toJson (a : Automaton) : Json.Value :=
  .ofRecord [("rows", .array (a.table.toList.map Row.toJson)), ("finals", a.acceptance.toJson)]

/-- The document of an automaton. -/
def document (a : Automaton) : List UInt8 := a.toJson.render

/-- Why a document is not written. -/
inductive SaveError where
  /-- The directory of the file does not exist. -/
  | notFound
  deriving DecidableEq, Repr

/-- The text of a failure to write a document. -/
def SaveError.message : SaveError → String
  | .notFound => "NotFound"

/-- What is written when an automaton is saved to a file, given how the creation of the file went:
the whole document or nothing. -/
def save (created : Except SaveError Unit) (a : Automaton) : Except SaveError (List UInt8) := do
  created
  return a.document

end Automaton

end TableLexer
