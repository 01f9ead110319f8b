import TableLexer.Rule.Basic

/-!
# Lines of a rule file

A line of a rule file holds the number of a state, the number of another, and a symbol:

    source target symbol [excluded]

The fields are the maximal runs of characters that are not blank. A line without fields, or whose
first field opens with a number sign, says nothing. A symbol is a single character, which stands for
the byte of its code, or a name: `JL`, `JD` and `sep` name classes of bytes, `no` opens an
exclusion, and seven further names stand for bytes that are hard to write. Fields past the ones that
a line needs are not looked at.
-/

namespace TableLexer

/-- What is wrong with a line of a rule file. -/
inductive RuleFault where
  /-- There are fields, but fewer than three. -/
  | missingField (found : Nat)
  /-- One of the first two fields is not the number of a state. -/
  | badState (text : String)
  /-- An exclusion does not say what it excludes. -/
  | missingExclusion
  /-- An exclusion names no byte that is known. -/
  | unknownSymbol (name : String)
  deriving DecidableEq, Repr

/-- Why a line that has the form of a rule gives no rule. -/
inductive Ignored where
  /-- The symbol is a single character that is no byte. -/
  | outsideByteRange (symbol : String)
  /-- The symbol is a name that means nothing. -/
  | unknownToken (name : String)
  deriving DecidableEq, Repr

/-- What a line of a rule file says. -/
inductive RuleLine where
  /-- Nothing: the line is blank or a comment. -/
  | blank
  /-- A rule. -/
  | rule (rule : Rule)
  /-- Something with the form of a rule, which is passed over. -/
  | ignored (reason : Ignored)
  deriving DecidableEq, Repr

namespace RuleLine

/-- The characters between fields: the space and the ASCII controls from HT to CR. Other white
space is a symbol like any character. -/
def isBlank (c : Char) : Bool := c = ' ' || ('\x09' ≤ c && c ≤ '\x0d')

/-- The fields of a line: its maximal runs of characters that are not blank. -/
def fields (line : List Char) : List (List Char) :=
  (line.splitOnP isBlank).filter fun field => !field.isEmpty

/-- The state that a field names: an optional plus sign and decimal digits, at least one of them,
with a value below the code of no edge. -/
def state? (field : List Char) : Option State :=
  let digits := match field with
    | '+' :: digits => digits
    | digits => digits
  let value := Nat.ofDigitChars 10 digits 0
  if !digits.isEmpty && digits.all Char.isDigit && value < State.noEdge.toNat then
    some value.toUInt32
  else
    none

/-- The state that a field names, or the fault of the field. -/
def readState (field : List Char) : Except RuleFault State :=
  match state? field with
  | some state => .ok state
  | none => .error (.badState (String.ofList field))

/-- The byte of a character, which has the same code. -/
def byte? (c : Char) : Option UInt8 :=
  if c.toNat < 256 then some c.toNat.toUInt8 else none

/-- The symbol of an exclusion. A single character that is no byte excludes nothing. -/
def readExcluded (field : List Char) : Except RuleFault Symbol :=
  match field with
  | [c] => .ok (match byte? c with
    | some b => .exclude b
    | none => .any)
  | name =>
    match ByteClass.named? (String.ofList name) with
    | some b => .ok (.exclude b)
    | none => .error (.unknownSymbol (String.ofList name))

/-- The symbol in the third field of a line, given the fields behind it, or the reason why the line
is passed over. -/
def readSymbol (field : List Char) (more : List (List Char)) :
    Except RuleFault (Except Ignored Symbol) :=
  match field with
  | [c] => .ok (match byte? c with
    | some b => .ok (.byte b)
    | none => .error (.outsideByteRange (String.singleton c)))
  | name =>
    match String.ofList name with
    | "JL" => .ok (.ok .letter)
    | "JD" => .ok (.ok .digitLike)
    | "sep" => .ok (.ok .separator)
    | "no" =>
      match more with
      | [] => .error .missingExclusion
      | excluded :: _ => (readExcluded excluded).map .ok
    | text =>
      match ByteClass.named? text with
      | some b => .ok (.ok (.byte b))
      | none => .ok (.error (.unknownToken text))

/-- What the fields of a line say. The states are read before the symbol, so of two faults the
leftmost is told. -/
def ofFields : List (List Char) → Except RuleFault RuleLine
  | [] => .ok .blank
  | ('#' :: _) :: _ => .ok .blank
  | source :: target :: symbol :: more => do
    let source ← readState source
    let target ← readState target
    match ← readSymbol symbol more with
    | .ok symbol => pure (.rule ⟨source, target, symbol⟩)
    | .error reason => pure (.ignored reason)
  | few => .error (.missingField few.length)

/-- What a line says. -/
def read (line : List Char) : Except RuleFault RuleLine := ofFields (fields line)

end RuleLine

end TableLexer
