import TableLexer.Acceptance
import TableLexer.Json.Printer
import TableLexer.Json.Record

/-!
# Accepting states in documents

The accepting states are a record with one field for each category, in the order of the categories.
A category without a field has no states.
-/

namespace TableLexer

/-- The name of the field of a category: the name of the category in lower case. -/
def Category.field (category : Category) : String :=
  String.ofList (category.name.toList.map Char.toLower)

/-- Why a document gives no table. -/
inductive DocumentError where
  /-- The document does not describe accepting states. -/
  | malformedAcceptance
  /-- The document does not describe a table. -/
  | malformedAutomaton
  /-- The table of the document is wrong. -/
  | invalid (cause : TableError)
  deriving DecidableEq, Repr

/-- The text of a failure to load a document. -/
def DocumentError.message : DocumentError → String
  | .malformedAcceptance => "Failed to parse final states JSON"
  | .malformedAutomaton => "Failed to parse automaton JSON"
  | .invalid cause => s!"Automaton JSON describes an invalid table: {cause.message}"

namespace Acceptance

/-- The accepting states of a value. -/
def ofJson? (value : Json.Value) : Option Acceptance := do
  let fields ← value.record? (Category.classified.map Category.field)
  let sets ← fields.mapM fun
    | some states => states.words?
    | none => some []
  return ofEntries (Category.classified.zip sets)

/-- The accepting states of a document. -/
def ofDocument (document : List UInt8) : Except DocumentError Acceptance :=
  match (Json.read? document).bind ofJson? with
  | some acceptance => .ok acceptance
  | none => .error .malformedAcceptance

/-- The value of accepting states, with a field for every category. -/
def toJson (acceptance : Acceptance) : Json.Value :=
  .ofRecord (acceptance.sets.map fun (category, states) => (category.field, .ofWords states))

end Acceptance

end TableLexer
