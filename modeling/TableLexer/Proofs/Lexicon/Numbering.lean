import Mathlib.Data.List.Nodup
import Mathlib.Data.List.Perm.Subperm
import TableLexer.Proofs.Lexicon.Growth

/-!
# Numbering by first occurrence

Texts that are interned one after the other are numbered in the order in which they occur first.
The lexicon behind them has each of them once, in this order, and the number of a text is its place
there, as long as there are no more texts than numbers.
-/

namespace TableLexer.Lexicon

/-- Interns texts one after the other, and gives their numbers in the same order. -/
def internAll (lexicon : Lexicon) : List String → List TokenId × Lexicon
  | [] => ([], lexicon)
  | text :: texts =>
    let (id, next) := lexicon.intern text
    let (ids, final) := next.internAll texts
    (id :: ids, final)

/-- The first text gets its number first, and the others are interned behind it. -/
theorem internAll_cons (lexicon : Lexicon) (text : String) (texts : List String) :
    lexicon.internAll (text :: texts) =
      ((lexicon.intern text).1 :: ((lexicon.intern text).2.internAll texts).1,
        ((lexicon.intern text).2.internAll texts).2) := rfl

/-- Every text gets a number. -/
theorem length_internAll (lexicon : Lexicon) (texts : List String) :
    (lexicon.internAll texts).1.length = texts.length := by
  induction texts generalizing lexicon with
  | nil => rfl
  | cons text texts ih => rw [internAll_cons, List.length_cons, List.length_cons, ih]

/-- Interning texts leaves all texts their places. -/
theorem extends_internAll (lexicon : Lexicon) (texts : List String) :
    (lexicon.internAll texts).2.Extends lexicon := by
  induction texts generalizing lexicon with
  | nil => exact .refl lexicon
  | cons text texts ih => exact (ih _).trans (lexicon.extends_intern text)

/-- Behind the texts that were there, the lexicon has the new ones, each where it occurred first. -/
theorem texts_internAll (lexicon : Lexicon) (texts : List String) :
    (lexicon.internAll texts).2.texts.toList =
      lexicon.texts.toList ++ (texts.filter (· ∉ lexicon.texts.toList)).eraseDups := by
  induction texts generalizing lexicon with
  | nil => simp [internAll]
  | cons text texts ih =>
    rw [internAll_cons, ih, texts_intern]
    by_cases hmem : text ∈ lexicon.texts
    · simp [hmem]
    · -- the text goes to the end, so it is new no more
      have hfilter : (texts.filter (· ∉ lexicon.texts.toList ++ [text])) =
          (texts.filter (· ∉ lexicon.texts.toList)).filter (fun other => !other == text) := by
        rw [List.filter_filter]
        congr 1
        funext other
        rw [Bool.eq_iff_iff]
        simp [not_or, and_comm]
      rw [if_neg hmem, Array.toList_push, hfilter, List.filter_cons_of_pos (by simpa using hmem),
        List.eraseDups_cons, List.append_assoc, List.singleton_append]

/-- From the empty lexicon on, the texts are the distinct ones in the order of their first
occurrence. -/
theorem texts_internAll_empty (texts : List String) :
    (empty.internAll texts).2.texts.toList = texts.eraseDups := by
  rw [texts_internAll]
  simp [empty]

/-- Starting from other texts never makes the lexicon smaller. -/
theorem size_internAll_empty_le (lexicon : Lexicon) (texts : List String) :
    (empty.internAll texts).2.size ≤ (lexicon.internAll texts).2.size := by
  have hsubset : (empty.internAll texts).2.texts.toList ⊆
      (lexicon.internAll texts).2.texts.toList := by
    intro text hmem
    rw [texts_internAll_empty, List.mem_eraseDups] at hmem
    by_cases hold : text ∈ lexicon.texts.toList
    · exact (lexicon.extends_internAll texts).subset hold
    · rw [texts_internAll, List.mem_append, List.mem_eraseDups]
      exact Or.inr (List.mem_filter.mpr ⟨hmem, by simpa using hold⟩)
  exact (List.Nodup.subperm (empty.internAll texts).2.nodup hsubset).length_le

/-- While numbers last, every number stands for its text. -/
theorem map_text?_internAll {lexicon : Lexicon} {texts : List String}
    (hsize : (lexicon.internAll texts).2.size ≤ UInt32.size) :
    (lexicon.internAll texts).1.map (lexicon.internAll texts).2.text? = texts.map some := by
  induction texts generalizing lexicon with
  | nil => rfl
  | cons text texts ih =>
    rw [internAll_cons] at hsize ⊢
    have hextends := (lexicon.intern text).2.extends_internAll texts
    have htext : (lexicon.intern text).2.text? (lexicon.intern text).1 = some text :=
      text?_intern (Nat.le_trans hextends.size_le hsize)
    rw [List.map_cons, List.map_cons, ih hsize]
    exact congrArg (· :: _) (hextends.text? htext)

/-- A number that stands for a text is the place of the text. -/
theorem idxOf_eq_of_text? {lexicon : Lexicon} {id : TokenId} {text : String}
    (h : lexicon.text? id = some text) : lexicon.texts.toList.idxOf text = id.toNat := by
  rw [text?, ← Array.getElem?_toList] at h
  obtain ⟨hlt, htext⟩ := List.getElem?_eq_some_iff.mp h
  rw [← htext]
  exact lexicon.nodup.idxOf_getElem _ hlt

/-- While numbers last, the numbers are the places of the texts. -/
theorem map_toNat_internAll {lexicon : Lexicon} {texts : List String}
    (hsize : (lexicon.internAll texts).2.size ≤ UInt32.size) :
    (lexicon.internAll texts).1.map UInt32.toNat =
      texts.map fun text => (lexicon.internAll texts).2.texts.toList.idxOf text := by
  have htexts := map_text?_internAll hsize
  apply List.ext_getElem (by simp [length_internAll])
  intro place hplace hplace'
  rw [List.length_map] at hplace hplace'
  have htext := congrArg (·[place]?) htexts
  simp only [List.getElem?_map, List.getElem?_eq_getElem hplace, List.getElem?_eq_getElem hplace',
    Option.map_some, Option.some.injEq] at htext
  rw [List.getElem_map, List.getElem_map, idxOf_eq_of_text? htext]

/-- While numbers last, the entries are the texts with the numbers from zero on. -/
theorem map_toNat_entries {lexicon : Lexicon} (hsize : lexicon.size ≤ UInt32.size) :
    lexicon.entries.map (fun entry => (entry.1.toNat, entry.2)) =
      lexicon.texts.toList.zipIdx.map Prod.swap := by
  rw [entries, List.map_map]
  apply List.map_congr_left
  rintro ⟨text, place⟩ hmem
  have hlt : place < lexicon.size := by
    have hplace := List.getElem?_eq_some_iff.mp (List.mem_zipIdx_iff_getElem?.mp hmem)
    simpa [size] using hplace.1
  have hplace : place.toUInt32.toNat = place := UInt32.toNat_ofNat_of_lt' (by omega)
  simp [hplace]

end TableLexer.Lexicon
