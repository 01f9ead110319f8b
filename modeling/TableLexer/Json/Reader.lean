import TableLexer.Json.Value

/-!
# Reading JSON

A reader takes a value off the front of some bytes and leaves the rest. The grammar is followed to
the letter: no comma behind the last item, no zero in front of a digit, no control character within
a string. Strings are not required to stand for text here, so a value that nobody looks at may hold
any bytes in its strings.

Values nest, so reading them takes fuel. `Json.read?` gives as much as there are bytes, and every
list or value that is entered takes one byte at least.
-/

namespace TableLexer.Json

/-- Takes a value off the front of some bytes and leaves the rest. -/
abbrev Reader (α : Type) := List UInt8 → Option (α × List UInt8)

/-- The code of an ASCII character. -/
abbrev code (c : Char) : UInt8 := c.toUInt8

/-- The bytes of an ASCII word. -/
def ascii (word : String) : List UInt8 := word.toList.map code

/-- The bytes that may stand around values: space, HT, LF and CR. -/
def isBlank (b : UInt8) : Bool := b = 0x20 || b = 0x09 || b = 0x0A || b = 0x0D

/-- Drops blank bytes from the front. -/
def skipBlank (input : List UInt8) : List UInt8 := input.dropWhile isBlank

/-- Whether a byte is a decimal digit. -/
def isDigit (b : UInt8) : Bool := code '0' ≤ b && b ≤ code '9'

/-- The value of decimal digits. -/
def decimal (digits : List UInt8) : Nat := Nat.ofDigitChars 10 (digits.map Char.ofUInt8) 0

/-- The value of a hexadecimal digit. -/
def hexDigit? (b : UInt8) : Option UInt16 :=
  if isDigit b then some (b - code '0').toUInt16
  else if code 'a' ≤ b && b ≤ code 'f' then some (b - code 'a' + 10).toUInt16
  else if code 'A' ≤ b && b ≤ code 'F' then some (b - code 'A' + 10).toUInt16
  else none

/-- The unit of four hexadecimal digits. -/
def unit? (a b c d : UInt8) : Option UInt16 := do
  let a ← hexDigit? a
  let b ← hexDigit? b
  let c ← hexDigit? c
  let d ← hexDigit? d
  return a * 0x1000 + b * 0x100 + c * 0x10 + d

/-- The unit of an escape that is a single character behind the backslash. -/
def shortEscape? (b : UInt8) : Option UInt16 :=
  [('"', 0x22), ('\\', 0x5C), ('/', 0x2F), ('b', 0x08), ('f', 0x0C), ('n', 0x0A), ('r', 0x0D),
    ('t', 0x09)].findSome? fun (c, unit) => if b = code c then some unit else none

/-- Reads a string behind its opening quote. -/
def text : Reader Text
  | [] => none
  | b :: rest =>
    if b = code '"' then
      some ([], rest)
    else if b = code '\\' then
      match rest with
      | [] => none
      | kind :: rest =>
        if kind = code 'u' then
          match rest with
          | a :: b :: c :: d :: rest => do
            let unit ← unit? a b c d
            let (more, rest) ← text rest
            return (.escape unit :: more, rest)
          | _ => none
        else do
          let unit ← shortEscape? kind
          let (more, rest) ← text rest
          return (.escape unit :: more, rest)
    else if b < 0x20 then
      none
    else do
      let (more, rest) ← text rest
      return (.byte b :: more, rest)

/-- A quote ends a string. -/
theorem text_quote (rest : List UInt8) : text (code '"' :: rest) = some ([], rest) := by
  rw [text.eq_def]
  rfl

/-- A byte that stands for itself is the first piece of a string. -/
theorem text_byte {b : UInt8} (hquote : b ≠ code '"') (hslash : b ≠ code '\\')
    (hcontrol : 0x20 ≤ b) (rest : List UInt8) :
    text (b :: rest) = (text rest).map fun (more, rest) => (.byte b :: more, rest) := by
  have hprint : ¬ b < 0x20 := UInt8.not_lt.mpr hcontrol
  rw [text.eq_def]
  simp only [if_neg hquote, if_neg hslash, if_neg hprint]
  cases text rest <;> rfl

/-- No escape by a single character is mistaken for one by digits. -/
theorem ne_of_shortEscape? {kind : UInt8} {unit : UInt16} (h : shortEscape? kind = some unit) :
    kind ≠ code 'u' := by
  rintro rfl
  have hnone : shortEscape? (code 'u') = none := by decide
  rw [hnone] at h
  cases h

/-- An escape by a single character is the first piece of a string. -/
theorem text_short {kind : UInt8} {unit : UInt16} (h : shortEscape? kind = some unit)
    (rest : List UInt8) :
    text (code '\\' :: kind :: rest) =
      (text rest).map fun (more, rest) => (.escape unit :: more, rest) := by
  have hquote : code '\\' ≠ code '"' := by decide
  rw [text.eq_def]
  simp only [if_neg hquote, if_neg (ne_of_shortEscape? h), h]
  cases text rest <;> rfl

/-- An escape by hexadecimal digits is the first piece of a string. -/
theorem text_digits {a b c d : UInt8} {unit : UInt16} (h : unit? a b c d = some unit)
    (rest : List UInt8) :
    text (code '\\' :: code 'u' :: a :: b :: c :: d :: rest) =
      (text rest).map fun (more, rest) => (.escape unit :: more, rest) := by
  have hquote : code '\\' ≠ code '"' := by decide
  rw [text.eq_def]
  simp only [if_neg hquote, h]
  cases text rest <;> rfl

/-- Reads a minus sign, if there is one. -/
def sign : List UInt8 → List UInt8 × List UInt8
  | [] => ([], [])
  | b :: rest => if b = code '-' then ([b], rest) else ([], b :: rest)

/-- Reads digits, at least one. -/
def digits : Reader (List UInt8) := fun input =>
  match input.span isDigit with
  | ([], _) => none
  | run => some run

/-- Reads the whole part of a number. A leading zero stands alone. -/
def whole : Reader (List UInt8)
  | [] => none
  | b :: rest => if b = code '0' then some ([b], rest) else digits (b :: rest)

/-- Reads the fraction of a number, if there is a point. -/
def fraction : Reader (List UInt8)
  | [] => some ([], [])
  | b :: rest =>
    if b = code '.' then
      (digits rest).map fun (run, rest) => (b :: run, rest)
    else
      some ([], b :: rest)

/-- Reads the sign of an exponent, if there is one. -/
def exponentSign : List UInt8 → List UInt8 × List UInt8
  | [] => ([], [])
  | b :: rest => if b = code '+' || b = code '-' then ([b], rest) else ([], b :: rest)

/-- Reads the exponent of a number, if there is its letter. -/
def exponent : Reader (List UInt8)
  | [] => some ([], [])
  | b :: rest =>
    if b = code 'e' || b = code 'E' then
      let (mark, rest) := exponentSign rest
      (digits rest).map fun (run, rest) => (b :: mark ++ run, rest)
    else
      some ([], b :: rest)

/-- Reads a number. -/
def number : Reader Value := fun input => do
  let (minus, rest) := sign input
  let (run, rest) ← whole rest
  let (point, rest) ← fraction rest
  let (power, rest) ← exponent rest
  if minus.isEmpty && point.isEmpty && power.isEmpty then
    return (.natural (decimal run), rest)
  else
    return (.number (minus ++ run ++ point ++ power), rest)

/-- Reads a word that stands for a value. -/
def word (spelling : String) (value : Value) : Reader Value := fun input =>
  if (ascii spelling).isPrefixOf input then
    some (value, input.drop (ascii spelling).length)
  else
    none

/-- A word is read off the front of any bytes. -/
theorem word_ascii (spelling : String) (value : Value) (rest : List UInt8) :
    word spelling value (ascii spelling ++ rest) = some (value, rest) := by
  have hprefix : (ascii spelling).isPrefixOf (ascii spelling ++ rest) = true :=
    List.isPrefixOf_iff_prefix.mpr (List.prefix_append _ _)
  rw [word, if_pos hprefix, List.drop_left]

/-- Reads items with commas between them, up to and with the closing byte. -/
def items {α : Type} (item : Reader α) (close : UInt8) : Nat → Reader (List α)
  | 0, _ => none
  | fuel + 1, input => do
    let (first, rest) ← item input
    match skipBlank rest with
    | [] => none
    | b :: rest =>
      if b = close then
        return ([first], rest)
      else if b = code ',' then do
        let (more, rest) ← items item close fuel rest
        return (first :: more, rest)
      else
        none

section Items

variable {α : Type} {item : Reader α} {close : UInt8} {fuel : Nat} {input rest later : List UInt8}
  {first : α}

/-- The closing byte behind an item ends the items. -/
theorem items_of_close (hitem : item input = some (first, rest))
    (hskip : skipBlank rest = close :: later) :
    items item close (fuel + 1) input = some ([first], later) := by
  simp only [items, hitem, Option.bind_eq_bind, Option.bind_some, hskip, ↓reduceIte]
  rfl

/-- A comma behind an item stands in front of further items. -/
theorem items_of_comma (hitem : item input = some (first, rest))
    (hskip : skipBlank rest = code ',' :: later) (hclose : code ',' ≠ close) {more : List α}
    {final : List UInt8} (hmore : items item close fuel later = some (more, final)) :
    items item close (fuel + 1) input = some (first :: more, final) := by
  simp only [items, hitem, Option.bind_eq_bind, Option.bind_some, hskip, if_neg hclose, hmore,
    ↓reduceIte]
  rfl

end Items

/-- Reads the closing byte, or else items up to it. -/
def itemsOrNone {α : Type} (item : Reader α) (close : UInt8) (fuel : Nat) : Reader (List α) :=
  fun input =>
    match skipBlank input with
    | [] => none
    | b :: rest => if b = close then some ([], rest) else items item close fuel (b :: rest)

/-- There are no items if the closing byte comes first. -/
theorem itemsOrNone_of_close {α : Type} {item : Reader α} {close : UInt8} {fuel : Nat}
    {input rest : List UInt8} (hskip : skipBlank input = close :: rest) :
    itemsOrNone item close fuel input = some ([], rest) := by
  simp only [itemsOrNone, hskip, ↓reduceIte]

/-- There are items if another byte comes first. -/
theorem itemsOrNone_of_ne {α : Type} {item : Reader α} {close b : UInt8} {fuel : Nat}
    {input rest : List UInt8} (hskip : skipBlank input = b :: rest) (hb : b ≠ close) :
    itemsOrNone item close fuel input = items item close fuel (b :: rest) := by
  simp only [itemsOrNone, hskip, if_neg hb]

/-- Reads a member of an object: a key, a colon and a value. -/
def member (value : Reader Value) : Reader (Text × Value) := fun input =>
  match skipBlank input with
  | [] => none
  | b :: rest =>
    if b = code '"' then do
      let (key, rest) ← text rest
      match skipBlank rest with
      | [] => none
      | b :: rest =>
        if b = code ':' then do
          let (value, rest) ← value rest
          return ((key, value), rest)
        else
          none
    else
      none

/-- A key, a colon and a value make a member. -/
theorem member_of_parts {reader : Reader Value} {input rest behind later final : List UInt8}
    {key : Text} {found : Value} (hquote : skipBlank input = code '"' :: rest)
    (hkey : text rest = some (key, behind)) (hcolon : skipBlank behind = code ':' :: later)
    (hvalue : reader later = some (found, final)) :
    member reader input = some ((key, found), final) := by
  simp only [member, hquote, hkey, Option.bind_eq_bind, Option.bind_some, hcolon, hvalue,
    ↓reduceIte]
  rfl

/-- Reads a value, nested at most as deep as there is fuel. -/
def value : Nat → Reader Value
  | 0, _ => none
  | fuel + 1, input =>
    match skipBlank input with
    | [] => none
    | b :: rest =>
      if b = code '[' then
        (itemsOrNone (value fuel) (code ']') (fuel + 1) rest).map fun (found, rest) =>
          (.array found, rest)
      else if b = code '\x7b' then
        (itemsOrNone (member (value fuel)) (code '\x7d') (fuel + 1) rest).map fun (found, rest) =>
          (.object found, rest)
      else if b = code '"' then
        (text rest).map fun (found, rest) => (.string found, rest)
      else if b = code 'n' then
        word "null" .null (b :: rest)
      else if b = code 't' then
        word "true" (.bool true) (b :: rest)
      else if b = code 'f' then
        word "false" (.bool false) (b :: rest)
      else
        number (b :: rest)

section Value

variable {fuel : Nat} {input rest later : List UInt8}

/-- A value that opens with a square bracket is the list of its items. -/
theorem value_of_array (hskip : skipBlank input = code '[' :: rest) {found : List Value}
    (hitems : itemsOrNone (value fuel) (code ']') (fuel + 1) rest = some (found, later)) :
    value (fuel + 1) input = some (.array found, later) := by
  simp only [value, hskip, ↓reduceIte, hitems]
  rfl

/-- A value that opens with a brace is the object of its members. -/
theorem value_of_object (hskip : skipBlank input = code '\x7b' :: rest)
    {found : List (Text × Value)}
    (hmembers : itemsOrNone (member (value fuel)) (code '\x7d') (fuel + 1) rest =
      some (found, later)) :
    value (fuel + 1) input = some (.object found, later) := by
  have hother : code '\x7b' ≠ code '[' := by decide
  simp only [value, hskip, if_neg hother, ↓reduceIte, hmembers]
  rfl

/-- A value that opens with a quote is a string. -/
theorem value_of_string (hskip : skipBlank input = code '"' :: rest) {found : Text}
    (htext : text rest = some (found, later)) :
    value (fuel + 1) input = some (.string found, later) := by
  have harray : code '"' ≠ code '[' := by decide
  have hobject : code '"' ≠ code '\x7b' := by decide
  simp only [value, hskip, if_neg harray, if_neg hobject, ↓reduceIte, htext]
  rfl

/-- The words that stand for values are read as these. -/
theorem value_of_word {spelling : String} {found : Value}
    (hword : (spelling, found) ∈ [("null", .null), ("true", .bool true), ("false", .bool false)])
    (hskip : skipBlank input = ascii spelling ++ rest) :
    value (fuel + 1) input = some (found, rest) := by
  have hread := word_ascii spelling found rest
  simp only [List.mem_cons, Prod.mk.injEq, List.not_mem_nil, or_false] at hword
  rcases hword with ⟨rfl, rfl⟩ | ⟨rfl, rfl⟩ | ⟨rfl, rfl⟩
  all_goals
    rw [value, hskip]
    exact hread

/-- A minus sign or a digit opens a number. -/
theorem value_of_number {b : UInt8} (hskip : skipBlank input = b :: rest)
    (hb : b = code '-' ∨ isDigit b = true) : value (fuel + 1) input = number (b :: rest) := by
  have hopen : ∀ c ∈ [code '[', code '\x7b', code '"', code 'n', code 't', code 'f'],
      c ≠ code '-' ∧ isDigit c = false := by decide +kernel
  have hother : ∀ c ∈ [code '[', code '\x7b', code '"', code 'n', code 't', code 'f'], b ≠ c := by
    rintro c hc rfl
    obtain ⟨hminus, hdigit⟩ := hopen b hc
    simp [hminus, hdigit] at hb
  simp only [List.forall_mem_cons] at hother
  obtain ⟨harray, hobject, hstring, hnull, htrue, hfalse, -⟩ := hother
  simp only [value, hskip, if_neg harray, if_neg hobject, if_neg hstring, if_neg hnull,
    if_neg htrue, if_neg hfalse]

end Value

/-- Reads a document: one value, with nothing but blank bytes around it. -/
def read? (document : List UInt8) : Option Value := do
  let (found, rest) ← value (document.length + 1) document
  if (skipBlank rest).isEmpty then some found else none

end TableLexer.Json
