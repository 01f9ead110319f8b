import TableLexer.Json.Reader

/-!
# Writing JSON

Values are written without blanks. Naturals are written with digits alone, in the shortest way, and
the pieces of strings as they are.
-/

namespace TableLexer.Json

/-- The decimal digits of a natural number. -/
def renderNatural (n : Nat) : List UInt8 := (Nat.toDigits 10 n).map code

/-- A piece of a string. -/
def renderPiece : Piece → List UInt8
  | .byte b => [b]
  | .escape unit =>
    let digit (place : Nat) := code (Nat.digitChar (unit.toNat / place % 16))
    [code '\\', code 'u', digit 0x1000, digit 0x100, digit 0x10, digit 1]

/-- A string, between quotes. -/
def renderText (text : Text) : List UInt8 :=
  code '"' :: text.flatMap renderPiece ++ [code '"']

mutual

/-- The document of a value. -/
def Value.render : Value → List UInt8
  | .null => ascii "null"
  | .bool true => ascii "true"
  | .bool false => ascii "false"
  | .natural n => renderNatural n
  | .number spelling => spelling
  | .string text => renderText text
  | .array items => code '[' :: renderItems items ++ [code ']']
  | .object members => code '\x7b' :: renderMembers members ++ [code '\x7d']

/-- Items with commas between them. -/
def renderItems : List Value → List UInt8
  | [] => []
  | [item] => item.render
  | item :: more => item.render ++ code ',' :: renderItems more

/-- Members with commas between them. -/
def renderMembers : List (Text × Value) → List UInt8
  | [] => []
  | [member] => renderMember member
  | member :: more => renderMember member ++ code ',' :: renderMembers more

/-- A key with its value. -/
def renderMember : Text × Value → List UInt8
  | (key, value) => renderText key ++ code ':' :: value.render

end

end TableLexer.Json
