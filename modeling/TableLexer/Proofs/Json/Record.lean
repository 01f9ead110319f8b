import TableLexer.ByteClass
import TableLexer.Json.Record

/-!
# Records read back

The string for a text stands for the text, and the object for a record with distinct names has the
fields of the record. The other way round, a record is only read from an object whose keys are all
text and do not repeat a name, or from a list that is not too long.
-/

namespace TableLexer.Json

/-! ### Texts -/

/-- A byte that is escaped is an ASCII character, and no surrogate. -/
theorem escape_of_byte {b : UInt8} (h : (b < 0x20 || b = 0x22 || b = 0x5C) = true) :
    Text.isHighSurrogate b.toUInt16 = false ∧ Text.isLowSurrogate b.toUInt16 = false ∧
      String.utf8EncodeChar (Char.ofNat b.toUInt16.toNat) = [b] := by
  have hbytes : ∀ b ∈ allBytes, (b < 0x20 || b = 0x22 || b = 0x5C) = true →
      Text.isHighSurrogate b.toUInt16 = false ∧ Text.isLowSurrogate b.toUInt16 = false ∧
        String.utf8EncodeChar (Char.ofNat b.toUInt16.toNat) = [b] := by
    decide +kernel
  exact hbytes b (mem_allBytes b) h

/-- The string for some bytes stands for them. -/
theorem bytes?_map (bytes : List UInt8) :
    Text.bytes? (bytes.map fun b =>
      if b < 0x20 || b = 0x22 || b = 0x5C then .escape b.toUInt16 else .byte b) = some bytes := by
  induction bytes with
  | nil => rfl
  | cons b bytes ih =>
    rw [List.map_cons]
    split
    · next hescaped =>
      obtain ⟨hhigh, hlow, hencode⟩ := escape_of_byte hescaped
      rw [Text.bytes?_escape hhigh hlow, ih, hencode]
      rfl
    · rw [Text.bytes?, ih]
      rfl

/-- The string for a text stands for the text. -/
theorem decode?_ofString (text : String) : (Text.ofString text).decode? = some text := by
  have hbytes : (text.toList.flatMap String.utf8EncodeChar).toByteArray = text.toByteArray :=
    String.utf8Encode_toList
  rw [Text.decode?, Text.ofString, bytes?_map, Option.bind_some, hbytes, String.fromUTF8?,
    dif_pos text.isValidUTF8]
  rfl

/-! ### Records -/

/-- Members whose keys are written for some names have these names. -/
theorem namedMembers?_ofString (fields : List (String × Value)) :
    Value.namedMembers? (fields.map fun (name, value) => (Text.ofString name, value)) =
      some fields := by
  rw [Value.namedMembers?, Value.mapM_map_eq_some (k := id), List.map_id]
  intro field
  simp [decode?_ofString]

/-- In a record with distinct names, every name has the value of its field. -/
theorem lookup_of_mem {fields : List (String × Value)} (hdistinct : (fields.map (·.1)).Nodup)
    {field : String × Value} (h : field ∈ fields) : fields.lookup field.1 = some field.2 := by
  induction fields with
  | nil => cases h
  | cons first later ih =>
    rw [List.map_cons, List.nodup_cons] at hdistinct
    rcases List.mem_cons.mp h with rfl | hlater
    · exact List.lookup_cons_self
    · have hother : field.1 ≠ first.1 := by
        intro hsame
        exact hdistinct.1 (hsame ▸ List.mem_map_of_mem hlater)
      rw [List.lookup_cons, beq_eq_false_iff_ne.mpr hother]
      exact ih hdistinct.2 hlater

/-- A name occurs at most once in a record with distinct names. -/
theorem countP_le_one {fields : List (String × Value)} (hdistinct : (fields.map (·.1)).Nodup)
    (name : String) : fields.countP (·.1 = name) ≤ 1 := by
  have hcount := List.nodup_iff_count.mp hdistinct name
  rw [List.count, List.countP_map] at hcount
  exact hcount

/-- The object for a record with distinct names has the fields of the record. -/
theorem record?_ofRecord {fields : List (String × Value)} {names : List String}
    (hnames : fields.map (·.1) = names) (hdistinct : names.Nodup) :
    (Value.ofRecord fields).record? names = some (fields.map fun field => some field.2) := by
  subst hnames
  have honce : ((fields.map (·.1)).all fun name => fields.countP (·.1 = name) ≤ 1) = true := by
    simp only [List.all_eq_true, decide_eq_true_eq]
    exact fun name _ => countP_le_one hdistinct name
  have hvalues : ((fields.map (·.1)).map fun name => fields.lookup name) =
      fields.map fun field => some field.2 := by
    rw [List.map_map]
    exact List.map_congr_left fun field hfield => lookup_of_mem hdistinct hfield
  rw [Value.ofRecord, Value.record?, namedMembers?_ofString]
  simp only [Option.bind_eq_bind, Option.bind_some, honce, ↓reduceIte, hvalues]

/-! ### What a record is read from -/

/-- Items are read one by one. -/
theorem mapM_eq_some_iff {α β : Type} {g : α → Option β} {xs : List α} {ys : List β} :
    xs.mapM g = some ys ↔ xs.map g = ys.map some := by
  induction xs generalizing ys with
  | nil => cases ys <;> simp
  | cons x xs ih =>
    rw [List.mapM_cons, Option.bind_eq_bind, Option.bind_eq_some_iff]
    constructor
    · rintro ⟨y, hy, hlater⟩
      obtain ⟨later, hmore, hall⟩ := Option.bind_eq_some_iff.mp hlater
      cases hall
      rw [List.map_cons, List.map_cons, hy, ih.mp hmore]
    · intro h
      cases ys with
      | nil => cases h
      | cons y ys =>
        obtain ⟨hy, hlater⟩ := List.cons.inj h
        exact ⟨y, hy, Option.bind_eq_some_iff.mpr ⟨ys, ih.mpr hlater, rfl⟩⟩

/-- What is read as some values of which each has a single form are the forms of the values. -/
theorem mapM_eq_some_iff_of_form {α β : Type} {g : α → Option β} {form : β → α}
    (h : ∀ {x y}, g x = some y ↔ x = form y) {xs : List α} {ys : List β} :
    xs.mapM g = some ys ↔ xs = ys.map form := by
  rw [mapM_eq_some_iff]
  constructor
  · intro hread
    induction xs generalizing ys with
    | nil =>
      rw [List.map_nil, eq_comm, List.map_eq_nil_iff] at hread
      rw [hread, List.map_nil]
    | cons x xs ih =>
      cases ys with
      | nil => cases hread
      | cons y ys =>
        obtain ⟨hx, hlater⟩ := List.cons.inj hread
        rw [List.map_cons, h.mp hx, ih hlater]
  · rintro rfl
    rw [List.map_map]
    exact List.map_congr_left fun y _ => h.mpr rfl

/-- A number of 32 bits is read from nothing but its value. -/
theorem word?_eq_some_iff {value : Value} {n : UInt32} :
    value.word? = some n ↔ value = .ofWord n := by
  constructor
  · intro h
    unfold Value.word? at h
    split at h
    · next m =>
      split at h
      · next hm =>
        cases h
        rw [Value.ofWord]
        simp [Nat.mod_eq_of_lt hm]
      · cases h
    · cases h
  · rintro rfl
    exact Value.word?_ofWord n

/-- A list of numbers of 32 bits is read from nothing but its value. -/
theorem words?_eq_some_iff {value : Value} {numbers : List UInt32} :
    value.words? = some numbers ↔ value = .ofWords numbers := by
  cases value with
  | array items =>
    rw [Value.words?, mapM_eq_some_iff_of_form word?_eq_some_iff, Value.ofWords,
      Value.array.injEq]
  | _ => simp [Value.words?, Value.ofWords]

/-- The first member has the name that its key stands for. -/
theorem namedMembers?_cons {key : Text} {value : Value} {members : List (Text × Value)}
    {named : List (String × Value)} :
    Value.namedMembers? ((key, value) :: members) = some named ↔
      ∃ name later, key.decode? = some name ∧ Value.namedMembers? members = some later ∧
        named = (name, value) :: later := by
  simp only [Value.namedMembers?, mapM_eq_some_iff, List.map_cons]
  constructor
  · intro h
    cases named with
    | nil => cases h
    | cons first later =>
      obtain ⟨hfirst, hlater⟩ := List.cons.inj h
      obtain ⟨name, hname, rfl⟩ := Option.map_eq_some_iff.mp hfirst
      exact ⟨name, later, hname, hlater, rfl⟩
  · rintro ⟨name, later, hname, hlater, rfl⟩
    rw [List.map_cons, hname, hlater]
    rfl

/-- The members have names if all of their keys are text. -/
theorem exists_namedMembers?_iff {members : List (Text × Value)} :
    (∃ named, Value.namedMembers? members = some named) ↔
      ∀ member ∈ members, member.1.decode?.isSome := by
  induction members with
  | nil => exact ⟨fun _ => List.forall_mem_nil _, fun _ => ⟨[], rfl⟩⟩
  | cons member members ih =>
    rw [List.forall_mem_cons, ← ih, Option.isSome_iff_exists]
    constructor
    · rintro ⟨named, h⟩
      obtain ⟨name, later, hname, hlater, -⟩ := namedMembers?_cons.mp h
      exact ⟨⟨name, hname⟩, later, hlater⟩
    · rintro ⟨⟨name, hname⟩, later, hlater⟩
      exact ⟨_, namedMembers?_cons.mpr ⟨name, later, hname, hlater, rfl⟩⟩

/-- The value of the first member whose key stands for a name. -/
def valueOf? (members : List (Text × Value)) (name : String) : Option Value :=
  (members.find? fun member => member.1.decode? = some name).map (·.2)

section Names

variable {members : List (Text × Value)} {named : List (String × Value)}

/-- A member is found by its name as it is found by its key. -/
theorem lookup_namedMembers (h : Value.namedMembers? members = some named) (name : String) :
    named.lookup name = valueOf? members name := by
  induction members generalizing named with
  | nil =>
    cases h
    rfl
  | cons member members ih =>
    obtain ⟨first, later, hfirst, hlater, rfl⟩ := namedMembers?_cons.mp h
    rw [List.lookup_cons, ih hlater, valueOf?, valueOf?, List.find?_cons, hfirst]
    by_cases hsame : name = first
    · simp [hsame]
    · simp [beq_eq_false_iff_ne.mpr hsame, Ne.symm hsame]

/-- A name is given as often as there are keys that stand for it. -/
theorem countP_namedMembers (h : Value.namedMembers? members = some named) (name : String) :
    named.countP (·.1 = name) = members.countP fun member => member.1.decode? = some name := by
  induction members generalizing named with
  | nil =>
    cases h
    rfl
  | cons member members ih =>
    obtain ⟨first, later, hfirst, hlater, rfl⟩ := namedMembers?_cons.mp h
    simp only [List.countP_cons, ih hlater, hfirst, Option.some.injEq]

/-- A record is read from an object if all keys are text and no name is given twice. Every field has
the value of its name, if it is given. -/
theorem record?_object_eq_some_iff {names : List String} {fields : List (Option Value)} :
    (Value.object members).record? names = some fields ↔
      (∀ member ∈ members, member.1.decode?.isSome) ∧
      (∀ name ∈ names, (members.countP fun member => member.1.decode? = some name) ≤ 1) ∧
      fields = names.map (valueOf? members) := by
  rw [Value.record?, Option.bind_eq_bind, Option.bind_eq_some_iff, ← exists_namedMembers?_iff,
    exists_and_right.symm]
  refine exists_congr fun named => and_congr_right fun hnamed => ?_
  simp only [lookup_namedMembers hnamed, countP_namedMembers hnamed, Option.ite_none_right_eq_some,
    List.all_eq_true, decide_eq_true_eq, Option.some.injEq]
  exact and_congr_right fun _ => eq_comm

end Names

/-- A record is read from a list that is not too long. Fields that it is too short for have no
value. -/
theorem record?_array_eq_some_iff {items : List Value} {names : List String}
    {fields : List (Option Value)} :
    (Value.array items).record? names = some fields ↔ items.length ≤ names.length ∧
      fields = items.map some ++ List.replicate (names.length - items.length) none := by
  rw [Value.record?, Option.ite_none_right_eq_some, Option.some.injEq]
  exact and_congr_right fun _ => eq_comm

end TableLexer.Json
