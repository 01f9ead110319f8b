import TableLexer.Json.Printer
import TableLexer.Json.Record
import TableLexer.Proofs.Json.Grammar

/-!
# JSON as it is written

What is written for a value spells the value. The written spellings have no blank bytes, and every
control character, quote and backslash of a text is written as an escape.
-/

namespace TableLexer.Json

/-! ### Naturals -/

/-- The digits of a number that is not zero do not begin with a zero. -/
theorem head?_toDigits_ne {n : Nat} (hn : 0 < n) : (Nat.toDigits 10 n).head? ≠ some '0' := by
  induction n using Nat.strongRecOn with
  | _ n ih =>
    rw [Nat.toDigits_eq_if (by decide)]
    split
    · rw [List.head?_cons, ne_eq, Option.some.injEq, Nat.digitChar_eq_zero]
      omega
    · have hhead := ih (n / 10) (by omega) (by omega)
      obtain ⟨first, more, hdigits⟩ :=
        List.exists_cons_of_ne_nil (Nat.toDigits_ne_nil (n := n / 10) (b := 10))
      rw [hdigits] at hhead ⊢
      exact hhead

/-- A decimal digit keeps its code as a byte. -/
theorem toNat_code_of_isDigit {c : Char} (h : c.isDigit) : (code c).toNat = c.toNat := by
  have hhigh : c.toNat ≤ '9'.toNat := (Char.isDigit_iff_toNat.mp h).2
  have hlt : c.toNat < 256 := Nat.lt_of_le_of_lt hhigh (by decide)
  have hcode : (code c).toNat = c.toNat % 256 := rfl
  rw [hcode, Nat.mod_eq_of_lt hlt]

/-- The byte of a digit is a digit. -/
theorem isDigit_code {c : Char} (h : c.isDigit) : isDigit (code c) = true := by
  have hbounds : '0'.toNat ≤ c.toNat ∧ c.toNat ≤ '9'.toNat := Char.isDigit_iff_toNat.mp h
  simp only [isDigit, Bool.and_eq_true, decide_eq_true_eq, UInt8.le_iff_toNat_le,
    toNat_code_of_isDigit h]
  exact hbounds

/-- A digit is the character of its byte. -/
theorem ofUInt8_code {c : Char} (h : c.isDigit) : Char.ofUInt8 (code c) = c :=
  Char.toNat_inj.mp (toNat_code_of_isDigit h)

/-- What is written for a natural has no zero in front of other digits. -/
theorem eq_nil_of_renderNatural {n : Nat} {more : List UInt8}
    (h : renderNatural n = code '0' :: more) : more = [] := by
  cases n with
  | zero => exact (List.cons.inj h).2.symm
  | succ n =>
    obtain ⟨first, later, hdigits⟩ :=
      List.exists_cons_of_ne_nil (Nat.toDigits_ne_nil (n := n + 1) (b := 10))
    have hfirst : first.isDigit :=
      Nat.isDigit_of_mem_toDigits (by decide) (by decide) (hdigits ▸ List.mem_cons_self)
    rw [renderNatural, hdigits] at h
    have hzero : first = '0' := by
      rw [← ofUInt8_code hfirst, (List.cons.inj h).1]
      rfl
    have hhead := head?_toDigits_ne (Nat.succ_pos n)
    rw [hdigits, hzero] at hhead
    exact absurd rfl hhead

/-- The digits of a natural are a whole part. -/
theorem whole_renderNatural (n : Nat) : Whole (renderNatural n) := by
  refine ⟨⟨by simp [renderNatural], ?_⟩, fun more => eq_nil_of_renderNatural⟩
  intro b hb
  obtain ⟨c, hc, rfl⟩ := List.mem_map.mp hb
  exact isDigit_code (Nat.isDigit_of_mem_toDigits (by decide) (by decide) hc)

/-- The value of the digits of a natural is the natural. -/
theorem decimal_renderNatural (n : Nat) : decimal (renderNatural n) = n := by
  have hback : (renderNatural n).map Char.ofUInt8 = Nat.toDigits 10 n := by
    rw [renderNatural, List.map_map]
    refine List.map_congr_left (fun c hc => ?_) |>.trans (List.map_id _)
    exact ofUInt8_code (Nat.isDigit_of_mem_toDigits (by decide) (by decide) hc)
  rw [decimal, hback, Nat.ofDigitChars_ten_toDigits]

/-- The decimal digits of a natural number spell it. -/
theorem spells_natural (n : Nat) : Spells (.natural n) (Value.natural n).render := by
  have hspells := Spells.number (.natural (whole_renderNatural n))
  rw [decimal_renderNatural] at hspells
  exact hspells

/-! ### Strings -/

/-- The character of a hexadecimal digit has the value of the digit. -/
theorem hexDigit?_digitChar {k : Nat} (hk : k < 16) :
    hexDigit? (code (Nat.digitChar k)) = some k.toUInt16 := by
  revert k
  decide

/-- An escape is written with the four digits of its unit. -/
theorem spellsPiece_escape (unit : UInt16) :
    SpellsPiece (.escape unit) (renderPiece (.escape unit)) := by
  refine .digits ?_
  have hdigit (place : Nat) : hexDigit? (code (Nat.digitChar (unit.toNat / place % 16))) =
      some (unit.toNat / place % 16).toUInt16 := hexDigit?_digitChar (Nat.mod_lt _ (by decide))
  simp only [unit?, hdigit, Option.bind_eq_bind, Option.bind_some]
  have hlt : unit.toNat < 65536 := unit.toNat_lt
  refine congrArg some (UInt16.toNat_inj.mp ?_)
  simp
  omega

/-- The string for a text is written as a spelling of it. -/
theorem spellsPieces_ofString (text : String) :
    SpellsPieces (Text.ofString text) ((Text.ofString text).flatMap renderPiece) := by
  rw [Text.ofString]
  induction text.toList.flatMap String.utf8EncodeChar with
  | nil => exact .nil
  | cons b bytes ih =>
    rw [List.map_cons, List.flatMap_cons]
    refine .cons ?_ ih
    split
    · exact spellsPiece_escape _
    · next hplain =>
      simp only [Bool.or_eq_true, decide_eq_true_eq, not_or, UInt8.not_lt] at hplain
      exact .byte hplain.1.2 hplain.2 hplain.1.1

/-- The string for a text, between quotes, spells it. -/
theorem spellsText_ofString (text : String) :
    SpellsText (Text.ofString text) (renderText (Text.ofString text)) :=
  .quoted (spellsPieces_ofString text)

/-! ### Lists and objects -/

/-- What is written for items are the items with commas between them. -/
theorem renderItems_eq (items : List Value) :
    renderItems items = [code ','].intercalate (items.map Value.render) := by
  induction items with
  | nil => rfl
  | cons item items ih =>
    cases items with
    | nil => simp [renderItems]
    | cons next later => simp [renderItems, ih, List.intercalate_cons_cons]

/-- What is written for members are the members with commas between them. -/
theorem renderMembers_eq (members : List (Text × Value)) :
    renderMembers members = [code ','].intercalate (members.map renderMember) := by
  induction members with
  | nil => rfl
  | cons member members ih =>
    cases members with
    | nil => simp [renderMembers]
    | cons next later => simp [renderMembers, ih, List.intercalate_cons_cons]

/-- Items that are written as they are spelled, with commas between them, are spelled so. -/
theorem listed_intercalate {α : Type} {spells : α → List UInt8 → Prop} {render : α → List UInt8}
    {first : α} {items : List α} (h : ∀ item ∈ first :: items, spells item (render item)) :
    Listed spells (first :: items) ([code ','].intercalate ((first :: items).map render)) := by
  have hfirst := h first List.mem_cons_self
  induction items generalizing first with
  | nil =>
    have hlast := Listed.last blank_nil hfirst blank_nil
    simpa using hlast
  | cons next later ih =>
    have hlater := fun item hitem => h item (List.mem_cons_of_mem _ hitem)
    have hcons := Listed.cons blank_nil hfirst blank_nil (ih hlater (h next (by simp)))
    simpa [List.intercalate_cons_cons] using hcons

/-- So they are between brackets, where there may be none. -/
theorem enclosed_intercalate {α : Type} {spells : α → List UInt8 → Prop} {render : α → List UInt8}
    {items : List α} (h : ∀ item ∈ items, spells item (render item)) :
    Enclosed spells items ([code ','].intercalate (items.map render)) := by
  cases items with
  | nil => exact .empty blank_nil
  | cons first later => exact .listed (listed_intercalate h)

/-- A list is spelled by the spellings of its items, set apart by commas. -/
theorem spells_array {items : List Value} (h : ∀ item ∈ items, Spells item item.render) :
    Spells (.array items) (Value.array items).render := by
  rw [Value.render, renderItems_eq]
  exact .array (enclosed_intercalate h)

/-- A list of numbers of 32 bits is written as it is spelled. -/
theorem spells_ofWords (numbers : List UInt32) :
    Spells (.ofWords numbers) (Value.ofWords numbers).render := by
  refine spells_array fun item hitem => ?_
  obtain ⟨n, -, rfl⟩ := List.mem_map.mp hitem
  exact spells_natural n.toNat

/-- A record is written as it is spelled, when its fields are. -/
theorem spells_ofRecord {fields : List (String × Value)}
    (h : ∀ field ∈ fields, Spells field.2 field.2.render) :
    Spells (.ofRecord fields) (Value.ofRecord fields).render := by
  rw [Value.ofRecord, Value.render, renderMembers_eq]
  refine .object (enclosed_intercalate fun member hmember => ?_)
  obtain ⟨⟨name, value⟩, hfield, rfl⟩ := List.mem_map.mp hmember
  have hmember := SpellsMember.pair (spellsText_ofString name) blank_nil blank_nil (h _ hfield)
  simpa [renderMember] using hmember

end TableLexer.Json
