import TableLexer.Proofs.Lexicon.Numbering

/-!
# Numbers and texts answer each other

A lexicon keeps its texts in one place and the number of every text in another. While numbers last,
the two are inverse: a text has a number if and only if the number stands for the text. Interning
keeps this up, since a new text changes the answers about itself and about its number only.
-/

namespace TableLexer.Lexicon

/-- How many texts have a number behind texts that are interned from the empty lexicon on: as many
as are distinct. -/
theorem size_internAll_empty (texts : List String) :
    (empty.internAll texts).2.size = texts.eraseDups.length := by
  rw [size, ← Array.length_toList, texts_internAll_empty]

/-- Texts that are interned behind others go on from the lexicon of the others. -/
theorem internAll_append (lexicon : Lexicon) (earlier later : List String) :
    (lexicon.internAll (earlier ++ later)).2 =
      ((lexicon.internAll earlier).2.internAll later).2 := by
  induction earlier generalizing lexicon with
  | nil => rfl
  | cons text earlier ih => rw [List.cons_append, internAll_cons, internAll_cons, ih]

/-- A sequence of texts has no fewer distinct ones than a sequence that it goes on from. -/
theorem size_internAll_le_of_prefix {earlier texts : List String} (h : earlier <+: texts) :
    (empty.internAll earlier).2.size ≤ (empty.internAll texts).2.size := by
  obtain ⟨later, rfl⟩ := h
  rw [internAll_append]
  exact ((empty.internAll earlier).2.extends_internAll later).size_le

/-- The numbers that stand for a text are those below the size. -/
theorem text?_isSome_iff {lexicon : Lexicon} {id : TokenId} :
    (lexicon.text? id).isSome ↔ id.toNat < lexicon.size := by
  rw [text?, size, getElem?_def]
  split <;> simp_all

/-- While numbers last, a text has a number if and only if the number stands for the text. -/
theorem find?_eq_some_iff {lexicon : Lexicon} (hsize : lexicon.size ≤ UInt32.size) {text : String}
    {id : TokenId} : lexicon.find? text = some id ↔ lexicon.text? id = some text := by
  rw [find?, lexicon.index_eq_some_iff, text?]
  constructor
  · rintro ⟨place, hplace, rfl⟩
    have hlt : place < lexicon.size := (Array.getElem?_eq_some_iff.mp hplace).1
    have hexact : place.toUInt32.toNat = place := UInt32.toNat_ofNat_of_lt' (by omega)
    rw [hexact, hplace]
  · intro htext
    exact ⟨id.toNat, htext, UInt32.ofNat_toNat⟩

/-- A text has a number if and only if it is one of the texts. -/
theorem exists_find?_iff {lexicon : Lexicon} {text : String} :
    (∃ id, lexicon.find? text = some id) ↔ text ∈ lexicon.texts := by
  constructor
  · rintro ⟨id, hid⟩
    obtain ⟨place, hplace, -⟩ := (lexicon.index_eq_some_iff text id).mp hid
    exact Array.mem_iff_getElem?.mpr ⟨place, hplace⟩
  · intro hmem
    obtain ⟨place, hplace⟩ := Array.mem_iff_getElem?.mp hmem
    exact ⟨_, (lexicon.index_eq_some_iff text _).mpr ⟨place, hplace, rfl⟩⟩

/-- A lexicon differs from an earlier one by a text with the next number, and by nothing else. -/
structure Adds (lexicon later : Lexicon) (text : String) (id : TokenId) : Prop where
  /-- The number is the first one that stood for no text. -/
  toNat_eq : id.toNat = lexicon.size
  /-- There is one more text. -/
  size_eq : later.size = lexicon.size + 1
  /-- The text has the number. -/
  find?_eq : later.find? text = some id
  /-- The number stands for the text. -/
  text?_eq : later.text? id = some text
  /-- All other texts keep their numbers, or have none. -/
  find?_of_ne : ∀ other, other ≠ text → later.find? other = lexicon.find? other
  /-- All other numbers keep their texts, or have none. -/
  text?_of_ne : ∀ other, other ≠ id → later.text? other = lexicon.text? other

/-- While numbers last, a new text gets the next number, and nothing else changes. -/
theorem adds_of_intern {lexicon : Lexicon} {text : String} (hnew : text ∉ lexicon.texts)
    (hroom : lexicon.size < UInt32.size) :
    lexicon.Adds (lexicon.intern text).2 text (lexicon.intern text).1 := by
  have hnone : lexicon.find? text = none := by
    cases hfind : lexicon.find? text with
    | none => rfl
    | some id => exact absurd (exists_find?_iff.mp ⟨id, hfind⟩) hnew
  have hexact : lexicon.size.toUInt32.toNat = lexicon.size := UInt32.toNat_ofNat_of_lt' hroom
  have hsize : (lexicon.push text hnew).size = lexicon.size + 1 := Array.size_push _
  have htext : (lexicon.push text hnew).text? lexicon.size.toUInt32 = some text := by
    rw [text?, hexact]
    exact Array.getElem?_push_size
  have hfind : (lexicon.push text hnew).find? text = some lexicon.size.toUInt32 :=
    (find?_eq_some_iff (by omega)).mpr htext
  rw [intern_of_find?_eq_none hnone]
  refine ⟨hexact, hsize, hfind, htext, fun other hother => ?_, fun other hother => ?_⟩
  · exact Std.HashMap.getElem?_insert.trans (if_neg (by simpa using hother.symm))
  · have hplace : other.toNat ≠ lexicon.size := by
      intro hsame
      exact hother (UInt32.toNat_inj.mp (hsame.trans hexact.symm))
    exact Array.getElem?_push.trans (if_neg hplace)

/-- While numbers last, the entries are the numbers below the size in ascending order, each with the
text that it stands for. -/
theorem entries_spec {lexicon : Lexicon} (hsize : lexicon.size ≤ UInt32.size) :
    lexicon.entries.map (fun entry => entry.1.toNat) = List.range lexicon.size ∧
      ∀ entry ∈ lexicon.entries, lexicon.text? entry.1 = some entry.2 := by
  have hentries := map_toNat_entries hsize
  constructor
  · have hplaces := congrArg (List.map Prod.fst) hentries
    rw [List.map_map, List.map_map] at hplaces
    refine hplaces.trans ?_
    change lexicon.texts.toList.zipIdx.map Prod.snd = List.range lexicon.size
    rw [List.zipIdx_map_snd, ← List.range_eq_range', Array.length_toList, size]
  · intro entry hentry
    have hmem : (entry.1.toNat, entry.2) ∈
        lexicon.entries.map fun entry => (entry.1.toNat, entry.2) :=
      List.mem_map.mpr ⟨entry, hentry, rfl⟩
    rw [hentries] at hmem
    obtain ⟨⟨text, place⟩, hplace, hswap⟩ := List.mem_map.mp hmem
    obtain ⟨rfl, rfl⟩ := Prod.mk.inj hswap
    rw [text?, ← Array.getElem?_toList]
    exact List.mem_zipIdx_iff_getElem?.mp hplace

/-- While numbers last, the numbers that were given to texts are those below the size, if there are
no texts but those that a number was given to. -/
theorem mem_ids_iff {lexicon : Lexicon} (hsize : lexicon.size ≤ UInt32.size) {ids : List TokenId}
    {texts : List String} (hgiven : ids.map lexicon.text? = texts.map some)
    (hknown : ∀ text ∈ lexicon.texts, text ∈ texts) (id : TokenId) :
    id ∈ ids ↔ id.toNat < lexicon.size := by
  rw [← text?_isSome_iff]
  constructor
  · intro hid
    have hmem : lexicon.text? id ∈ texts.map some := hgiven ▸ List.mem_map_of_mem hid
    obtain ⟨text, -, htext⟩ := List.mem_map.mp hmem
    rw [← htext]
    rfl
  · intro hsome
    obtain ⟨text, htext⟩ := Option.isSome_iff_exists.mp hsome
    have hmem : some text ∈ ids.map lexicon.text? :=
      hgiven ▸ List.mem_map_of_mem (hknown text (Array.mem_of_getElem? htext))
    obtain ⟨other, hother, hsame⟩ := List.mem_map.mp hmem
    -- two numbers of one text are the same, since the text has one number
    have hid := (find?_eq_some_iff hsize).mpr htext
    rw [(find?_eq_some_iff hsize).mpr hsame, Option.some.injEq] at hid
    exact hid ▸ hother

/-- A text that does not occur yet is distinct from the ones before it. -/
theorem eraseDups_append_singleton {texts : List String} {text : String} (h : text ∉ texts) :
    (texts ++ [text]).eraseDups = texts.eraseDups ++ [text] := by
  have hremoved : [text].removeAll texts = [text] := by simp [List.removeAll, h]
  rw [List.eraseDups_append, hremoved]
  rfl

/-- Let texts be interned one after the other from the empty lexicon on, no more distinct ones than
there are numbers. Behind every one of them, the numbers that were given are those below the size,
and they stand for the distinct texts in the order of their first occurrence, each number for the
text that it was given to. A text has a number if and only if the number stands for the text. A text
that has been interned gets its number again and changes nothing, and another one gets the next
number and changes nothing else. The entries are the numbers in ascending order with their texts. -/
theorem internAll_inverse (texts : List String) (hsize : texts.eraseDups.length ≤ UInt32.size)
    (earlier : List String) (hearlier : earlier <+: texts) (ids : List TokenId) (lexicon : Lexicon)
    (h : empty.internAll earlier = (ids, lexicon)) :
    (lexicon.size = earlier.eraseDups.length ∧
      (∀ id, id ∈ ids ↔ id.toNat < lexicon.size) ∧
      (∀ id, lexicon.text? id = earlier.eraseDups[id.toNat]?) ∧
      ids.map lexicon.text? = earlier.map some) ∧
    (∀ text id, lexicon.find? text = some id ↔ lexicon.text? id = some text) ∧
    (∀ text ∈ earlier, ∃ id, lexicon.find? text = some id ∧ lexicon.intern text = (id, lexicon)) ∧
    (∀ text, text ∉ earlier → (earlier ++ [text]).eraseDups.length ≤ UInt32.size →
      ∃ id later, lexicon.intern text = (id, later) ∧ lexicon.Adds later text id) ∧
    (lexicon.entries.map (fun entry => entry.1.toNat) = List.range lexicon.size ∧
      ∀ entry ∈ lexicon.entries, lexicon.text? entry.1 = some entry.2) := by
  have hnumbers : lexicon.size ≤ UInt32.size := by
    have hle := size_internAll_le_of_prefix hearlier
    rw [size_internAll_empty texts, h] at hle
    exact Nat.le_trans hle hsize
  have hcount := size_internAll_empty earlier
  have htexts := texts_internAll_empty earlier
  have hgiven : ids.map lexicon.text? = earlier.map some := by
    have hall := @map_text?_internAll empty earlier (by rwa [h])
    rwa [h] at hall
  rw [h] at hcount htexts
  have hknown (text : String) : text ∈ lexicon.texts ↔ text ∈ earlier := by
    rw [← Array.mem_toList_iff, htexts, List.mem_eraseDups]
  refine ⟨⟨hcount, mem_ids_iff hnumbers hgiven ?_, fun id => ?_, hgiven⟩,
    fun _ _ => find?_eq_some_iff hnumbers, fun text hmem => ?_, fun text hnew hroom => ?_,
    entries_spec hnumbers⟩
  · exact fun text hmem => (hknown text).mp hmem
  · rw [text?, ← Array.getElem?_toList, htexts]
  · obtain ⟨id, hid⟩ := exists_find?_iff.mpr ((hknown text).mpr hmem)
    exact ⟨id, hid, intern_of_find? hid⟩
  · have hfew : lexicon.size < UInt32.size := by
      rw [eraseDups_append_singleton hnew, List.length_append, ← hcount] at hroom
      exact hroom
    exact ⟨_, _, rfl, adds_of_intern (fun hmem => hnew ((hknown text).mp hmem)) hfew⟩

/-- Two texts, of which one occurs again, and a third one after them. -/
theorem internAll_inverse_thirdText :
    ["x", "y", "x", "z"].eraseDups.length ≤ UInt32.size ∧ ["x", "y", "x"] <+: ["x", "y", "x", "z"] ∧
      ∃ ids lexicon, empty.internAll ["x", "y", "x"] = (ids, lexicon) ∧ lexicon.size = 2 ∧
        (∀ id, lexicon.text? id = ["x", "y"][id.toNat]?) ∧
        (∃ id, lexicon.find? "y" = some id ∧ lexicon.intern "y" = (id, lexicon)) ∧
        ∃ id later, lexicon.intern "z" = (id, later) ∧ lexicon.Adds later "z" id := by
  have hsize : ["x", "y", "x", "z"].eraseDups.length ≤ UInt32.size := by decide
  have hearlier : ["x", "y", "x"] <+: ["x", "y", "x", "z"] := ⟨["z"], rfl⟩
  obtain ⟨⟨hcount, -, htexts, -⟩, -, hknown, hnew, -⟩ :=
    internAll_inverse ["x", "y", "x", "z"] hsize ["x", "y", "x"] hearlier _ _ rfl
  exact ⟨hsize, hearlier, _, _, rfl, hcount, htexts, hknown "y" (by decide),
    hnew "z" (by decide) (by decide)⟩

end TableLexer.Lexicon
