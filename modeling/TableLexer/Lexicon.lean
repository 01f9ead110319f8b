import Std.Data.HashMap

/-!
# Lexicons

A lexicon numbers the distinct lexemes of a scan in the order in which they first occur. It answers
both ways: the number of a text and the text of a number. The invariant of the structure says that
the two directions agree, so that the index by text never has to be mentioned in a proof.
-/

namespace TableLexer

/-- The number of a lexeme in a lexicon. -/
abbrev TokenId := UInt32

/-- Distinct texts, numbered from zero in the order of their first occurrence. -/
structure Lexicon where
  /-- The texts, at the places of their numbers. -/
  texts : Array String
  /-- The number of every text that has one. -/
  index : Std.HashMap String TokenId
  /-- No text is numbered twice. -/
  nodup : texts.toList.Nodup
  /-- The index knows exactly the texts, with their places as numbers. -/
  index_eq_some_iff : ∀ text id, index[text]? = some id ↔
    ∃ place : Nat, texts[place]? = some text ∧ place.toUInt32 = id

namespace Lexicon

/-- The lexicon without texts. -/
def empty : Lexicon where
  texts := #[]
  index := ∅
  nodup := by simp
  index_eq_some_iff := by simp

/-- How many texts have a number. -/
def size (lexicon : Lexicon) : Nat := lexicon.texts.size

/-- The number of a text, if it has one. -/
def find? (lexicon : Lexicon) (text : String) : Option TokenId := lexicon.index[text]?

/-- The text of a number, if there is one. -/
def text? (lexicon : Lexicon) (id : TokenId) : Option String := lexicon.texts[id.toNat]?

/-- The numbers with their texts, in the order of the numbers. -/
def entries (lexicon : Lexicon) : List (TokenId × String) :=
  lexicon.texts.toList.zipIdx.map fun (text, place) => (place.toUInt32, text)

/-- A text without a number is none of the texts. -/
theorem not_mem_of_find?_eq_none {lexicon : Lexicon} {text : String}
    (h : lexicon.find? text = none) : text ∉ lexicon.texts := by
  intro hmem
  obtain ⟨place, hplace⟩ := Array.mem_iff_getElem?.mp hmem
  have hsome := (lexicon.index_eq_some_iff text place.toUInt32).mpr ⟨place, hplace, rfl⟩
  simp [find?, hsome] at h

/-- Gives the next number to a text that has none. -/
def push (lexicon : Lexicon) (text : String) (hnew : text ∉ lexicon.texts) : Lexicon where
  texts := lexicon.texts.push text
  index := lexicon.index.insert text lexicon.size.toUInt32
  nodup := by
    rw [Array.toList_push, List.nodup_append]
    refine ⟨lexicon.nodup, by simp, ?_⟩
    intro old hold new hmem heq
    simp only [List.mem_singleton] at hmem
    exact hnew (Array.mem_toList_iff.mp (hmem ▸ heq ▸ hold))
  index_eq_some_iff := by
    intro other id
    rw [Std.HashMap.getElem?_insert]
    by_cases h : text = other
    · subst h
      simp only [beq_self_eq_true, if_true, Option.some.injEq, Array.getElem?_push]
      constructor
      · intro hid
        exact ⟨lexicon.size, by simp [size], hid⟩
      · rintro ⟨place, hplace, hid⟩
        split at hplace
        · next heq => rw [← hid, heq, size]
        · exact absurd (Array.mem_iff_getElem?.mpr ⟨place, hplace⟩) hnew
    · simp only [beq_iff_eq, h, if_false, lexicon.index_eq_some_iff, Array.getElem?_push]
      constructor
      · rintro ⟨place, hplace, hid⟩
        refine ⟨place, ?_, hid⟩
        have hlt := (Array.getElem?_eq_some_iff.mp hplace).1
        rw [if_neg (by omega), hplace]
      · rintro ⟨place, hplace, hid⟩
        split at hplace
        · simp [h] at hplace
        · exact ⟨place, hplace, hid⟩

/-- The number of a text, which is a new one if the text had none. -/
def intern (lexicon : Lexicon) (text : String) : TokenId × Lexicon :=
  match h : lexicon.find? text with
  | some id => (id, lexicon)
  | none => (lexicon.size.toUInt32, lexicon.push text (not_mem_of_find?_eq_none h))

/-- A text that has a number keeps it, and the lexicon stays as it was. -/
theorem intern_of_find? {lexicon : Lexicon} {text : String} {id : TokenId}
    (h : lexicon.find? text = some id) : lexicon.intern text = (id, lexicon) := by
  unfold intern
  split
  · next found hfound =>
    rw [h] at hfound
    rw [Option.some.inj hfound]
  · next hnone => simp [h] at hnone

/-- A new text gets the next number and goes behind the others. -/
theorem intern_of_find?_eq_none {lexicon : Lexicon} {text : String}
    (h : lexicon.find? text = none) :
    lexicon.intern text =
      (lexicon.size.toUInt32, lexicon.push text (not_mem_of_find?_eq_none h)) := by
  unfold intern
  split
  · next found hfound => simp [h] at hfound
  · rfl

/-- The texts after `intern`: only a new text is added, at the end. -/
theorem texts_intern (lexicon : Lexicon) (text : String) :
    (lexicon.intern text).2.texts =
      if text ∈ lexicon.texts then lexicon.texts else lexicon.texts.push text := by
  cases h : lexicon.find? text with
  | none =>
    rw [intern_of_find?_eq_none h, if_neg (not_mem_of_find?_eq_none h)]
    rfl
  | some id =>
    obtain ⟨place, hplace, -⟩ := (lexicon.index_eq_some_iff text id).mp h
    rw [intern_of_find? h, if_pos (Array.mem_iff_getElem?.mpr ⟨place, hplace⟩)]

/-- The number that `intern` answers is that of some text: numbers past the last are never given. -/
theorem text?_intern_isSome (lexicon : Lexicon) (text : String) :
    ((lexicon.intern text).2.text? (lexicon.intern text).1).isSome := by
  have hsmall : ∀ n : Nat, n.toUInt32.toNat ≤ n := by
    intro n
    have hmod : n.toUInt32.toNat = n % 2 ^ 32 := UInt32.toNat_ofNat'
    omega
  cases h : lexicon.find? text with
  | none =>
    have hle := hsmall lexicon.texts.size
    simp only [intern_of_find?_eq_none h, text?, push, size, Array.getElem?_push]
    split
    · rfl
    · rw [Array.getElem?_eq_getElem (by omega)]
      rfl
  | some id =>
    obtain ⟨place, hplace, hid⟩ := (lexicon.index_eq_some_iff text id).mp h
    have hle := hsmall place
    have hlt := (Array.getElem?_eq_some_iff.mp hplace).1
    simp only [intern_of_find? h, text?, ← hid]
    rw [Array.getElem?_eq_getElem (by omega)]
    rfl

end Lexicon

end TableLexer
