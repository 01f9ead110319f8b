import TableLexer.Category
import TableLexer.Lexicon

/-!
# Tokens

A token names its lexeme by the number that the lexicon of the scan gave to it.
-/

namespace TableLexer

/-- One scanned token. -/
structure Token where
  /-- The number of the lexeme in the lexicon of the scan. -/
  id : TokenId
  /-- The category of the lexeme, reserved words taken into account. -/
  category : Category
  deriving DecidableEq, Repr

end TableLexer
