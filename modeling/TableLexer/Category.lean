/-!
# Categories of tokens

An automaton classifies a lexeme into one of seven categories. The other three are reached from the
first of them alone: a lexeme shaped like an identifier may turn out to be a reserved word.
-/

namespace TableLexer

/-- What kind of token a lexeme is. -/
inductive Category where
  | identifier
  | integerLiteral
  | floatingPointLiteral
  | characterLiteral
  | stringLiteral
  | operator
  | separator
  | keyword
  | nullLiteral
  | booleanLiteral
  deriving DecidableEq, Repr

namespace Category

/-- The name of a category in listings, messages and documents. -/
def name : Category → String
  | identifier => "IDENTIFIER"
  | integerLiteral => "INTEGER_LITERAL"
  | floatingPointLiteral => "FLOATING_POINT_LITERAL"
  | characterLiteral => "CHARACTER_LITERAL"
  | stringLiteral => "STRING_LITERAL"
  | operator => "OPERATOR"
  | separator => "SEPARATOR"
  | keyword => "KEYWORD"
  | nullLiteral => "NULL_LITERAL"
  | booleanLiteral => "BOOLEAN_LITERAL"

/-- The categories that states of an automaton have, in the order in which they are listed. -/
def classified : List Category :=
  [identifier, integerLiteral, floatingPointLiteral, characterLiteral, stringLiteral, operator,
    separator]

/-- Every category: the classified ones and those of reserved words. -/
def all : List Category := classified ++ [keyword, nullLiteral, booleanLiteral]

/-- The category of a name. -/
def ofName? (name : String) : Option Category := all.find? fun c => c.name = name

/-- No category is left out. -/
theorem mem_all (c : Category) : c ∈ all := by cases c <;> decide

/-- The name of a category is that of no other one. -/
theorem ofName?_name (c : Category) : ofName? c.name = some c := by cases c <;> decide

/-- The reserved words that are keywords. -/
def keywords : List String :=
  ["abstract", "assert", "boolean", "break", "byte", "case", "catch", "char", "class", "const",
    "continue", "default", "do", "double", "else", "enum", "extends", "final", "finally", "float",
    "for", "if", "goto", "implements", "import", "instanceof", "int", "interface", "long", "native",
    "new", "package", "private", "protected", "public", "return", "short", "static", "strictfp",
    "super", "switch", "synchronized", "this", "throw", "throws", "transient", "try", "void",
    "volatile", "while"]

/-- Whether a word is a keyword. -/
def isKeyword (word : String) : Bool := keywords.contains word

/-- Whether a word is the null literal. -/
def isNull (word : String) : Bool := word = "null"

/-- Whether a word is one of the two boolean literals. -/
def isBoolean (word : String) : Bool := word = "true" || word = "false"

/-- The category of a lexeme, given the one its state has: identifiers that are reserved words leave
their category, and all else keeps it. -/
def resolve (c : Category) (lexeme : String) : Category :=
  match c with
  | identifier =>
    if isKeyword lexeme then keyword
    else if isNull lexeme then nullLiteral
    else if isBoolean lexeme then booleanLiteral
    else identifier
  | other => other

end Category

end TableLexer
