import TableLexer.Consumer.Basic

/-!
# Listings

A listing is a consumer that writes one line for each token: the category, a space and the lexeme. A
failure is written as its message, without an end of line, and what was written is flushed then.
Lines and messages are written in pieces, each of which may be refused.

Where a listing goes is up to a writer. A page is a writer that keeps the text, possibly in limited
room.
-/

namespace TableLexer

/-- Takes text piece by piece, with a state of type `σ` and refusals of type `ε`. -/
structure Writer (σ ε : Type) where
  /-- Takes a piece of text. -/
  write : String → EStateM ε σ Unit
  /-- Makes sure that what was taken has arrived. -/
  flush : EStateM ε σ Unit

/-- Takes some pieces of text, one after the other, up to the first that is refused. -/
def Writer.writeAll {σ ε : Type} (writer : Writer σ ε) (pieces : List String) :
    EStateM ε σ Unit :=
  pieces.forM writer.write

/-- The pieces in which the line of a token is written. -/
def linePieces (category : Category) (lexeme : String) : List String :=
  [category.name, " ", lexeme, "\n"]

/-- The pieces in which the message of a failure is written. -/
def LexicalError.pieces (e : LexicalError) : List String :=
  ["Lexer Error at character number ", toString e.position]

/-- The pieces of a failure make up its message. -/
theorem LexicalError.join_pieces (e : LexicalError) : String.join e.pieces = e.message := by
  rw [pieces, String.join_cons, String.join_cons, String.join_nil, String.append_empty]
  rfl

/-- The consumer that writes a listing to a writer. -/
def Consumer.listing {σ ε : Type} (writer : Writer σ ε) : Consumer σ ε where
  accept token lexeme := writer.writeAll (linePieces token.category lexeme)
  error e := do
    writer.writeAll e.pieces
    writer.flush

/-- What a page holds. -/
structure Page where
  /-- The text on it. -/
  text : String := ""
  /-- How often it was flushed. -/
  flushes : Nat := 0
  deriving DecidableEq, Repr

/-- Why a page refuses what it is given. -/
inductive PageError where
  /-- A piece of text does not fit. -/
  | noRoom
  /-- Flushing fails. -/
  | flush
  deriving DecidableEq, Repr

/-- The text of a refusal of a page. -/
def PageError.message : PageError → String
  | .noRoom => "no room"
  | .flush => "flush failed"

/-- The page with room for so many bytes of UTF-8, or without limit. A piece of text that does not
fit is not taken at all. Every flush is counted, also one that fails. -/
def Writer.page (room : Option Nat) (flushFails : Bool) : Writer Page PageError where
  write piece := do
    if room.any (· < (← get).text.utf8ByteSize + piece.utf8ByteSize) then
      throw .noRoom
    modify fun page => { page with text := page.text ++ piece }
  flush := do
    modify fun page => { page with flushes := page.flushes + 1 }
    if flushFails then
      throw .flush

namespace Writer

variable {room : Option Nat} {flushFails : Bool}

/-- A piece is taken if there is room for it, and changes nothing if there is not. -/
theorem write_page (piece : String) (page : Page) :
    (Writer.page room flushFails).write piece page =
      if room.any (· < page.text.utf8ByteSize + piece.utf8ByteSize) then .error .noRoom page
      else .ok () { page with text := page.text ++ piece } := by
  change (if _ then _ else _ : EStateM PageError Page Unit) page = _
  split <;> rfl

/-- A flush is counted, whether it fails or not. -/
theorem flush_page (page : Page) : (Writer.page room flushFails).flush page =
    if flushFails then .error .flush { page with flushes := page.flushes + 1 }
    else .ok () { page with flushes := page.flushes + 1 } := by
  cases flushFails <;> rfl

end Writer

end TableLexer
