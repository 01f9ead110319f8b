import TableLexer.Json.Printer
import TableLexer.Json.Record
import TableLexer.Token

/-!
# Tokens in documents

A token is a record of its number and its category. A category is written as its name; an object
whose only member has the name as its key and null as its value is read, too.
-/

namespace TableLexer

/-- The category of a value. -/
def Category.ofJson? : Json.Value → Option Category
  | .string name => name.decode?.bind ofName?
  | .object [(name, .null)] => name.decode?.bind ofName?
  | _ => none

namespace Token

/-- The token of a value. -/
def ofJson? (value : Json.Value) : Option Token := do
  match ← value.record? ["id", "category"] with
  | [some id, some category] => return ⟨← id.word?, ← Category.ofJson? category⟩
  | _ => none

/-- The token of a document. -/
def ofDocument? (document : List UInt8) : Option Token := (Json.read? document).bind ofJson?

/-- The value of a token. -/
def toJson (token : Token) : Json.Value :=
  .ofRecord [("id", .ofWord token.id), ("category", .ofText token.category.name)]

/-- The document of a token. -/
def document (token : Token) : List UInt8 := token.toJson.render

end Token

end TableLexer
