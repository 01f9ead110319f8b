import TableLexer.Json.Value
import TableLexer.State

/-!
# Records in documents

A record with named fields may be written in two ways: as an object, or as the list of its fields in
their order. An object may leave fields out, give them in any order and have further members, but it
may not give a field twice, and all of its keys have to be text. A list may be too short, but not
too long.
-/

namespace TableLexer.Json.Value

/-- The members of an object by the text of their keys. -/
def namedMembers? (members : List (Text × Value)) : Option (List (String × Value)) :=
  members.mapM fun (key, value) => key.decode?.map (·, value)

/-- The fields of a record, each with its value if the record gives one. -/
def record? (names : List String) : Value → Option (List (Option Value))
  | object members => do
    let members ← namedMembers? members
    if names.all fun name => members.countP (·.1 = name) ≤ 1 then
      some (names.map fun name => members.lookup name)
    else
      none
  | array fields =>
    if fields.length ≤ names.length then
      some (fields.map some ++ List.replicate (names.length - fields.length) none)
    else
      none
  | _ => none

/-- The text of a string. -/
def text? : Value → Option String
  | string text => text.decode?
  | _ => none

/-- A number of 32 bits. -/
def word? : Value → Option UInt32
  | natural n => if n < UInt32.size then some n.toUInt32 else none
  | _ => none

/-- A list of numbers of 32 bits. -/
def words? : Value → Option (List UInt32)
  | array items => items.mapM word?
  | _ => none

/-- The value of a number of 32 bits. -/
def ofWord (n : UInt32) : Value := natural n.toNat

/-- The value of a list of numbers of 32 bits. -/
def ofWords (numbers : List UInt32) : Value := array (numbers.map ofWord)

/-- The value of a text. -/
def ofText (text : String) : Value := string (Text.ofString text)

/-- The object of a record, with its fields in the given order. -/
def ofRecord (fields : List (String × Value)) : Value :=
  object (fields.map fun (name, value) => (Text.ofString name, value))

/-- The value of a 32-bit number is read back as the number. -/
theorem word?_ofWord (n : UInt32) : word? (ofWord n) = some n := by
  have hn : n.toNat < UInt32.size := n.toNat_lt
  have hn' : n.toNat.toUInt32 = n := UInt32.ofNat_toNat
  simp only [word?, ofWord, if_pos hn, hn']

/-- Values that are read one by one as they were made are read as they were made all together. -/
theorem mapM_map_eq_some {α β γ : Type} {f : α → β} {g : β → Option γ} {k : α → γ}
    (h : ∀ x, g (f x) = some (k x)) (xs : List α) : (xs.map f).mapM g = some (xs.map k) := by
  have hread : g ∘ f = fun x => pure (k x) := funext h
  rw [List.mapM_map, hread, List.mapM_pure]
  rfl

/-- The value of a list of 32-bit numbers is read back as the list. -/
theorem words?_ofWords (numbers : List UInt32) : words? (ofWords numbers) = some numbers := by
  have hwords := mapM_map_eq_some word?_ofWord numbers
  rwa [List.map_id'] at hwords

end TableLexer.Json.Value
