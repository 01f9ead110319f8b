/-!
# JSON values

A value keeps what a reader of documents can tell apart. Numbers written with digits alone are
naturals; all other numbers only keep their spelling, since no document has a use for them. A string
is kept as it is written: it need not stand for any text, because its bytes may be no UTF-8 and its
escapes may be halves of a surrogate pair. `Text.decode?` gives the text that a string stands for.
-/

namespace TableLexer.Json

/-- A piece of a string as it is written. -/
inductive Piece where
  /-- A byte that stands for itself. -/
  | byte (b : UInt8)
  /-- A UTF-16 unit that is written as an escape. -/
  | escape (unit : UInt16)
  deriving DecidableEq, Repr

/-- A string as it is written, between its quotes. -/
abbrev Text := List Piece

/-- A JSON value. -/
inductive Value where
  | null
  | bool (b : Bool)
  /-- A number without sign, fraction and exponent. -/
  | natural (n : Nat)
  /-- Any other number, by its spelling. -/
  | number (spelling : List UInt8)
  | string (text : Text)
  | array (items : List Value)
  /-- The members in the order of the document; keys may be repeated. -/
  | object (members : List (Text × Value))

mutual

/-- Whether two values are the same. -/
def Value.same : Value → Value → Bool
  | .null, .null => true
  | .bool b, .bool other => b = other
  | .natural n, .natural other => n = other
  | .number spelling, .number other => spelling = other
  | .string text, .string other => text = other
  | .array items, .array others => sameItems items others
  | .object members, .object others => sameMembers members others
  | _, _ => false

/-- Whether items are the same, one by one. -/
def sameItems : List Value → List Value → Bool
  | [], [] => true
  | item :: more, other :: others => item.same other && sameItems more others
  | _, _ => false

/-- Whether members are the same, one by one. -/
def sameMembers : List (Text × Value) → List (Text × Value) → Bool
  | [], [] => true
  | (key, value) :: more, (otherKey, other) :: others =>
    key = otherKey && value.same other && sameMembers more others
  | _, _ => false

end

mutual

/-- Values are the same if they are equal. -/
theorem Value.same_iff : ∀ value other : Value, value.same other = true ↔ value = other
  | .null, other | .bool _, other | .natural _, other | .number _, other | .string _, other => by
    cases other <;> simp [Value.same]
  | .array items, other => by
    cases other <;> simp [Value.same, sameItems_iff items]
  | .object members, other => by
    cases other <;> simp [Value.same, sameMembers_iff members]

/-- Items are the same if their lists are equal. -/
theorem sameItems_iff : ∀ items others : List Value, sameItems items others = true ↔ items = others
  | [], others => by
    cases others <;> simp [sameItems]
  | item :: more, others => by
    cases others <;> simp [sameItems, Value.same_iff item, sameItems_iff more]

/-- Members are the same if their lists are equal. -/
theorem sameMembers_iff :
    ∀ members others : List (Text × Value), sameMembers members others = true ↔ members = others
  | [], others => by
    cases others <;> simp [sameMembers]
  | (key, value) :: more, others => by
    cases others <;> simp [sameMembers, Value.same_iff value, sameMembers_iff more, Prod.ext_iff]

end

/-- Equal values can be told. The values inside of lists keep `deriving` from giving this. -/
instance : DecidableEq Value := fun value other => decidable_of_iff _ (Value.same_iff value other)

namespace Text

/-- Whether a unit is the first half of a surrogate pair. -/
def isHighSurrogate (unit : UInt16) : Bool := 0xD800 ≤ unit && unit ≤ 0xDBFF

/-- Whether a unit is the second half of a surrogate pair. -/
def isLowSurrogate (unit : UInt16) : Bool := 0xDC00 ≤ unit && unit ≤ 0xDFFF

/-- The character of a surrogate pair. -/
def ofSurrogates (high low : UInt16) : Char :=
  Char.ofNat (0x10000 + (high.toNat - 0xD800) * 0x400 + (low.toNat - 0xDC00))

/-- The bytes that a string stands for, unless it holds half a surrogate pair. -/
def bytes? : Text → Option (List UInt8)
  | [] => some []
  | .byte b :: rest => (bytes? rest).map (b :: ·)
  | .escape unit :: rest =>
    if isHighSurrogate unit then
      match rest with
      | .escape low :: rest =>
        if isLowSurrogate low then
          (bytes? rest).map (String.utf8EncodeChar (ofSurrogates unit low) ++ ·)
        else
          none
      | _ => none
    else if isLowSurrogate unit then
      none
    else
      (bytes? rest).map (String.utf8EncodeChar (Char.ofNat unit.toNat) ++ ·)

/-- An escape that is no half of a surrogate pair stands for the character of its unit. -/
theorem bytes?_escape {unit : UInt16} (hhigh : isHighSurrogate unit = false)
    (hlow : isLowSurrogate unit = false) (rest : Text) :
    bytes? (.escape unit :: rest) =
      (bytes? rest).map (String.utf8EncodeChar (Char.ofNat unit.toNat) ++ ·) := by
  rw [bytes?.eq_def]
  simp [hhigh, hlow]

/-- The text that a string stands for, if its bytes are UTF-8. -/
def decode? (text : Text) : Option String :=
  text.bytes?.bind fun bytes => String.fromUTF8? bytes.toByteArray

/-- The string for a text. Quotes, backslashes and control characters are escaped. -/
def ofString (text : String) : Text :=
  (text.toList.flatMap String.utf8EncodeChar).map fun b =>
    if b < 0x20 || b = 0x22 || b = 0x5C then .escape b.toUInt16 else .byte b

end Text

end TableLexer.Json
