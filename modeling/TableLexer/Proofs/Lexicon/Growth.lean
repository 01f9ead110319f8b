import TableLexer.Lexicon

/-!
# Growth of lexicons

A lexicon grows at its end only, so a number that stands for a text keeps standing for it. Numbers
have 32 bits: as long as there are no more texts than such numbers, the number that `intern` gives
to a text stands for this text.
-/

namespace TableLexer.Lexicon

/-- Whether a lexicon has the texts of an older one at its front. -/
def Extends (newer older : Lexicon) : Prop := older.texts.toList <+: newer.texts.toList

/-- A lexicon has its own texts at its front. -/
theorem Extends.refl (lexicon : Lexicon) : lexicon.Extends lexicon := List.prefix_rfl

/-- A lexicon that grows twice still has the first texts at its front. -/
theorem Extends.trans {newest newer older : Lexicon} (h : newest.Extends newer)
    (holder : newer.Extends older) : newest.Extends older :=
  List.IsPrefix.trans holder h

/-- A lexicon does not shrink when it grows at its end. -/
theorem Extends.size_le {newer older : Lexicon} (h : newer.Extends older) :
    older.size ≤ newer.size := by
  simpa [size] using h.length_le

/-- A number keeps its text. -/
theorem Extends.text? {newer older : Lexicon} (h : newer.Extends older) {id : TokenId}
    {text : String} (hold : older.text? id = some text) : newer.text? id = some text := by
  obtain ⟨more, hmore⟩ := h
  unfold Lexicon.text? at hold ⊢
  rw [← Array.getElem?_toList] at hold ⊢
  have hlt := (List.getElem?_eq_some_iff.mp hold).1
  rw [← hmore, List.getElem?_append_left hlt, hold]

/-- Interning a text leaves all texts their places. -/
theorem extends_intern (lexicon : Lexicon) (text : String) :
    (lexicon.intern text).2.Extends lexicon := by
  unfold Extends
  rw [texts_intern]
  split
  · exact List.prefix_rfl
  · rw [Array.toList_push]
    exact List.prefix_append _ _

/-- Interning a text adds one text at most. -/
theorem size_intern_le (lexicon : Lexicon) (text : String) :
    (lexicon.intern text).2.size ≤ lexicon.size + 1 := by
  unfold size
  rw [texts_intern]
  split
  · exact Nat.le_succ _
  · exact Nat.le_of_eq (Array.size_push _)

/-- While the numbers last, `intern` answers a number that stands for the text. -/
theorem text?_intern {lexicon : Lexicon} {text : String}
    (hsize : (lexicon.intern text).2.size ≤ UInt32.size) :
    (lexicon.intern text).2.text? (lexicon.intern text).1 = some text := by
  have hsmall : ∀ place : Nat, place < UInt32.size → place.toUInt32.toNat = place :=
    fun place hplace => UInt32.toNat_ofNat_of_lt' hplace
  cases hfind : lexicon.find? text with
  | some id =>
    rw [intern_of_find? hfind] at hsize ⊢
    obtain ⟨place, hplace, rfl⟩ := (lexicon.index_eq_some_iff text id).mp hfind
    have hlt : place < lexicon.texts.size := (Array.getElem?_eq_some_iff.mp hplace).1
    have hle : lexicon.texts.size ≤ UInt32.size := hsize
    rw [text?, hsmall place (by omega), hplace]
  | none =>
    rw [intern_of_find?_eq_none hfind] at hsize ⊢
    simp only [size, push, Array.size_push] at hsize
    rw [text?, size, hsmall lexicon.texts.size (by omega), push, Array.getElem?_push_size]

end TableLexer.Lexicon
