import TableLexer.Json.Reader

/-!
# The grammar of JSON

Which bytes spell a value. A value has many spellings: blank bytes may stand around its items, its
members and their keys, and an escape has up to three forms. The grammar is a relation between
values and bytes, without a word about how far a reader looks ahead or how much fuel it takes.
-/

namespace TableLexer.Json

/-- The blank bytes: space, HT, LF and CR. -/
def blanks : List UInt8 := [0x20, 0x09, 0x0A, 0x0D]

/-- A run of blank bytes, which may be empty. -/
def Blank (run : List UInt8) : Prop := ∀ b ∈ run, b ∈ blanks

/-- An empty run is blank. -/
theorem blank_nil : Blank [] := List.forall_mem_nil _

/-! ### Strings -/

/-- The spellings of a piece of a string. -/
inductive SpellsPiece : Piece → List UInt8 → Prop
  /-- A byte that stands for itself: no quote, no backslash and no control character. -/
  | byte {b : UInt8} (hquote : b ≠ code '"') (hslash : b ≠ code '\\') (hcontrol : 0x20 ≤ b) :
    SpellsPiece (.byte b) [b]
  /-- An escape by a single character. -/
  | short {kind : UInt8} {unit : UInt16} (h : shortEscape? kind = some unit) :
    SpellsPiece (.escape unit) [code '\\', kind]
  /-- An escape by the four hexadecimal digits of its unit. -/
  | digits {a b c d : UInt8} {unit : UInt16} (h : unit? a b c d = some unit) :
    SpellsPiece (.escape unit) [code '\\', code 'u', a, b, c, d]

/-- The spellings of the pieces of a string, without the quotes. -/
inductive SpellsPieces : Text → List UInt8 → Prop
  /-- No pieces. -/
  | nil : SpellsPieces [] []
  /-- A piece in front of others. -/
  | cons {piece : Piece} {text : Text} {here later : List UInt8} (hpiece : SpellsPiece piece here)
    (h : SpellsPieces text later) : SpellsPieces (piece :: text) (here ++ later)

/-- The spellings of a string, with its quotes. -/
inductive SpellsText : Text → List UInt8 → Prop
  /-- Pieces between quotes. -/
  | quoted {text : Text} {inner : List UInt8} (h : SpellsPieces text inner) :
    SpellsText text (code '"' :: (inner ++ [code '"']))

/-! ### Numbers -/

/-- A run of decimal digits, at least one. -/
structure Digits (run : List UInt8) : Prop where
  /-- There is a digit. -/
  ne_nil : run ≠ []
  /-- There are only digits. -/
  digit : ∀ b ∈ run, isDigit b = true

/-- The whole part of a number: a zero alone, or digits that do not begin with a zero. -/
structure Whole (run : List UInt8) : Prop where
  /-- The whole part is made of digits. -/
  digits : Digits run
  /-- A leading zero stands alone. -/
  leading : ∀ more, run = code '0' :: more → more = []

/-- The fraction of a number, which may be missing. -/
inductive Fraction : List UInt8 → Prop
  /-- No fraction. -/
  | missing : Fraction []
  /-- A point and digits. -/
  | point {run : List UInt8} (h : Digits run) : Fraction (code '.' :: run)

/-- The exponent of a number, which may be missing. -/
inductive Exponent : List UInt8 → Prop
  /-- No exponent. -/
  | missing : Exponent []
  /-- The letter of an exponent, a sign that may be missing, and digits. -/
  | power {letter : UInt8} {mark run : List UInt8} (hletter : letter ∈ [code 'e', code 'E'])
    (hmark : mark ∈ [[], [code '+'], [code '-']]) (h : Digits run) :
    Exponent (letter :: (mark ++ run))

/-- The spellings of numbers. -/
inductive SpellsNumber : Value → List UInt8 → Prop
  /-- A number of digits alone is a natural. -/
  | natural {run : List UInt8} (h : Whole run) : SpellsNumber (.natural (decimal run)) run
  /-- A number with a minus sign, a fraction or an exponent is kept as it is spelled. -/
  | other {minus run point power : List UInt8} (hminus : minus ∈ [[], [code '-']])
    (hwhole : Whole run) (hpoint : Fraction point) (hpower : Exponent power)
    (hsome : minus ≠ [] ∨ point ≠ [] ∨ power ≠ []) :
    SpellsNumber (.number (minus ++ run ++ point ++ power)) (minus ++ run ++ point ++ power)

/-! ### Lists and objects -/

/-- The spellings of items, at least one: with commas between them, and blank bytes around them. -/
inductive Listed {α : Type} (spells : α → List UInt8 → Prop) : List α → List UInt8 → Prop
  /-- The last item. -/
  | last {item : α} {lead text trail : List UInt8} (hlead : Blank lead) (h : spells item text)
    (htrail : Blank trail) : Listed spells [item] (lead ++ text ++ trail)
  /-- An item in front of others. -/
  | cons {item : α} {items : List α} {lead text trail later : List UInt8} (hlead : Blank lead)
    (h : spells item text) (htrail : Blank trail) (hlater : Listed spells items later) :
    Listed spells (item :: items) (lead ++ text ++ trail ++ code ',' :: later)

/-- The spellings of what stands between the brackets of a list or an object. -/
inductive Enclosed {α : Type} (spells : α → List UInt8 → Prop) : List α → List UInt8 → Prop
  /-- No items. -/
  | empty {run : List UInt8} (h : Blank run) : Enclosed spells [] run
  /-- Items. -/
  | listed {items : List α} {text : List UInt8} (h : Listed spells items text) :
    Enclosed spells items text

/-- The spellings of a member of an object: its key, a colon, and its value. -/
inductive SpellsMember (spells : Value → List UInt8 → Prop) : Text × Value → List UInt8 → Prop
  /-- A key and a value, with blank bytes around the colon. -/
  | pair {key : Text} {value : Value} {name trail lead text : List UInt8}
    (hkey : SpellsText key name) (htrail : Blank trail) (hlead : Blank lead)
    (hvalue : spells value text) :
    SpellsMember spells (key, value) (name ++ trail ++ code ':' :: (lead ++ text))

/-- The spellings of values, without blank bytes in front of them or behind. -/
inductive Spells : Value → List UInt8 → Prop
  /-- The word for null. -/
  | isNull : Spells .null (ascii "null")
  /-- The word for true. -/
  | isTrue : Spells (.bool true) (ascii "true")
  /-- The word for false. -/
  | isFalse : Spells (.bool false) (ascii "false")
  /-- A number. -/
  | number {value : Value} {text : List UInt8} (h : SpellsNumber value text) : Spells value text
  /-- A string. -/
  | string {found : Text} {text : List UInt8} (h : SpellsText found text) :
    Spells (.string found) text
  /-- A list. -/
  | array {items : List Value} {inner : List UInt8} (h : Enclosed Spells items inner) :
    Spells (.array items) (code '[' :: (inner ++ [code ']']))
  /-- An object. -/
  | object {members : List (Text × Value)} {inner : List UInt8}
    (h : Enclosed (SpellsMember Spells) members inner) :
    Spells (.object members) (code '\x7b' :: (inner ++ [code '\x7d']))

end TableLexer.Json
