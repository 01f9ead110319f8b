import TableLexer.Proofs.Document.RoundTrip
import TableLexer.Proofs.Json.Exactness

/-!
# The documents of accepting states

Accepting states have many documents. As an object, they may have their fields in any order, leave
out empty ones and have further members of any kind; as a list, they may leave out empty sets at the
end; and blank bytes may stand between all of it. All of these documents are loaded as the same
accepting states, and no other document is.
-/

namespace TableLexer.Acceptance

open Json (Text Value Blank Spells SpellsDocument)

/-! ### Presentations -/

/-- Whether the members of an object present accepting states: in any order, among further members,
and without some of the categories that have no states. Keys are compared as text, so the escapes in
them do not matter. -/
structure PresentedBy (acceptance : Acceptance) (members : List (Text × Value)) : Prop where
  /-- All keys are text, also those of further members. -/
  text : ∀ member ∈ members, member.1.decode?.isSome
  /-- No category has two members. -/
  once : ∀ category ∈ Category.classified,
    (members.countP fun member => member.1.decode? = some category.field) ≤ 1
  /-- The member of a category lists its states. -/
  given : ∀ category ∈ Category.classified, ∀ member ∈ members,
    member.1.decode? = some category.field → member.2 = .ofWords (acceptance.states category)
  /-- A category without a member has no states. -/
  omitted : ∀ category ∈ Category.classified,
    (∀ member ∈ members, member.1.decode? ≠ some category.field) → acceptance.states category = []

/-- The values that present accepting states. -/
inductive Presents (acceptance : Acceptance) : Value → Prop
  /-- An object with a member for every category that has states. -/
  | object {members : List (Text × Value)} (h : acceptance.PresentedBy members) :
    Presents acceptance (.object members)
  /-- The list of the sets in the order of the categories, without some empty ones at the end. -/
  | array {kept dropped : List (List State)}
    (hsets : Category.classified.map acceptance.states = kept ++ dropped)
    (hempty : ∀ states ∈ dropped, states = []) : Presents acceptance (.array (kept.map .ofWords))

/-! ### What is read as accepting states -/

/-- The states of a category that a record has a field for, or none if the field is missing. -/
def fieldStates? : Option Value → Option (List State)
  | some states => states.words?
  | none => some []

/-- A field gives the states whose numbers it lists. -/
theorem fieldStates?_some_eq_some_iff {value : Value} {states : List State} :
    fieldStates? (some value) = some states ↔ value = .ofWords states :=
  Json.words?_eq_some_iff

/-- A missing field gives no states. -/
theorem fieldStates?_none_eq_some_iff {states : List State} :
    fieldStates? none = some states ↔ states = [] := by
  rw [fieldStates?, Option.some.injEq, eq_comm]

/-- Sets make up the accepting states that have them. -/
theorem ofEntries_zip_eq_iff {acceptance : Acceptance} {sets : List (List State)}
    (h : sets.length = Category.classified.length) :
    ofEntries (Category.classified.zip sets) = acceptance ↔
      sets = Category.classified.map acceptance.states := by
  constructor
  · rintro rfl
    match sets, h with
    | [_, _, _, _, _, _, _], _ => rfl
  · rintro rfl
    exact ofEntries_states acceptance

/-- A record has a field for every name. -/
theorem length_of_record? {names : List String} {value : Value} {fields : List (Option Value)}
    (h : value.record? names = some fields) : fields.length = names.length := by
  cases value with
  | object members =>
    obtain ⟨-, -, rfl⟩ := Json.record?_object_eq_some_iff.mp h
    exact List.length_map _
  | array items =>
    obtain ⟨hlength, rfl⟩ := Json.record?_array_eq_some_iff.mp h
    simp [hlength]
  | _ => cases h

/-- Accepting states are read from a record whose fields give the states of all categories. -/
theorem ofJson?_eq_some_iff {value : Value} {acceptance : Acceptance} :
    ofJson? value = some acceptance ↔
      ∃ fields, value.record? (Category.classified.map Category.field) = some fields ∧
        fields.map fieldStates? =
          (Category.classified.map acceptance.states).map some := by
  have hread : ofJson? value =
      (value.record? (Category.classified.map Category.field)).bind fun fields =>
        (fields.mapM fieldStates?).bind fun sets =>
          some (ofEntries (Category.classified.zip sets)) := rfl
  rw [hread, Option.bind_eq_some_iff]
  refine exists_congr fun fields => and_congr_right fun hfields => ?_
  have hlength : fields.length = Category.classified.length := by
    rw [length_of_record? hfields, List.length_map]
  rw [Option.bind_eq_some_iff]
  constructor
  · rintro ⟨sets, hsets, hall⟩
    rw [Json.mapM_eq_some_iff] at hsets
    have hsame : sets.length = Category.classified.length := by
      have hcount := congrArg List.length hsets
      rw [List.length_map, List.length_map, hlength] at hcount
      exact hcount.symm
    rw [hsets, (ofEntries_zip_eq_iff hsame).mp (Option.some.inj hall)]
  · intro h
    refine ⟨_, Json.mapM_eq_some_iff.mpr h, ?_⟩
    rw [ofEntries_states]

/-- Members with a property that is counted at most once are the same. -/
theorem eq_of_countP_le_one {α : Type} {p : α → Bool} {xs : List α} (h : xs.countP p ≤ 1) {x y : α}
    (hx : x ∈ xs) (hpx : p x = true) (hy : y ∈ xs) (hpy : p y = true) : x = y := by
  have hxf := List.mem_filter.mpr ⟨hx, hpx⟩
  have hyf := List.mem_filter.mpr ⟨hy, hpy⟩
  rw [List.countP_eq_length_filter] at h
  match hfilter : xs.filter p, h with
  | [], _ => simp [hfilter] at hxf
  | [z], _ =>
    rw [hfilter, List.mem_singleton] at hxf hyf
    rw [hxf, hyf]

/-- What an object that gives a name at most once has for it. -/
theorem fieldStates?_valueOf?_eq_some_iff {members : List (Text × Value)} {name : String}
    {states : List State}
    (honce : (members.countP fun member => member.1.decode? = some name) ≤ 1) :
    fieldStates? (Json.valueOf? members name) = some states ↔
      (∀ member ∈ members, member.1.decode? = some name → member.2 = .ofWords states) ∧
        ((∀ member ∈ members, member.1.decode? ≠ some name) → states = []) := by
  rw [Json.valueOf?]
  cases hfind : members.find? fun member => member.1.decode? = some name with
  | none =>
    have hmissing : ∀ member ∈ members, member.1.decode? ≠ some name := by
      simpa using hfind
    rw [Option.map_none, fieldStates?_none_eq_some_iff]
    constructor
    · exact fun h =>
        ⟨fun member hmember hname => absurd hname (hmissing member hmember), fun _ => h⟩
    · exact fun h => h.2 hmissing
  | some found =>
    have hfound := List.mem_of_find?_eq_some hfind
    have hname := List.find?_some hfind
    rw [Option.map_some, fieldStates?_some_eq_some_iff]
    constructor
    · refine fun h => ⟨fun member hmember hsame => ?_, fun hmissing => ?_⟩
      · rwa [eq_of_countP_le_one honce hmember (decide_eq_true hsame) hfound hname]
      · exact absurd (of_decide_eq_true hname) (hmissing found hfound)
    · exact fun h => h.1 found hfound (of_decide_eq_true hname)

/-- Accepting states are read from the objects that present them. -/
theorem ofJson?_object_eq_some_iff {members : List (Text × Value)} {acceptance : Acceptance} :
    ofJson? (.object members) = some acceptance ↔ acceptance.PresentedBy members := by
  rw [ofJson?_eq_some_iff]
  simp only [Json.record?_object_eq_some_iff]
  constructor
  · rintro ⟨fields, ⟨htext, honce, rfl⟩, hfields⟩
    rw [List.forall_mem_map] at honce
    rw [List.map_map, List.map_map, List.map_map, List.map_inj_left] at hfields
    have hstates {category : Category} (hcategory : category ∈ Category.classified) :=
      (fieldStates?_valueOf?_eq_some_iff (honce category hcategory)).mp (hfields category hcategory)
    exact ⟨htext, honce, fun _ hcategory => (hstates hcategory).1,
      fun _ hcategory => (hstates hcategory).2⟩
  · intro h
    refine ⟨_, ⟨h.text, List.forall_mem_map.mpr h.once, rfl⟩, ?_⟩
    rw [List.map_map, List.map_map, List.map_map, List.map_inj_left]
    intro category hcategory
    exact (fieldStates?_valueOf?_eq_some_iff (h.once category hcategory)).mpr
      ⟨h.given category hcategory, h.omitted category hcategory⟩

/-- Accepting states are read from the lists that present them. -/
theorem ofJson?_array_eq_some_iff {items : List Value} {acceptance : Acceptance} :
    ofJson? (.array items) = some acceptance ↔ Presents acceptance (.array items) := by
  rw [ofJson?_eq_some_iff]
  simp only [Json.record?_array_eq_some_iff, List.length_map]
  constructor
  · rintro ⟨fields, ⟨-, rfl⟩, hfields⟩
    rw [List.map_append, List.map_map, List.map_replicate] at hfields
    obtain ⟨kept, dropped, hsets, hkept, hdropped⟩ := List.append_eq_map_iff.mp hfields
    have hitems : items = kept.map .ofWords :=
      (Json.mapM_eq_some_iff_of_form Json.words?_eq_some_iff).mp
        (Json.mapM_eq_some_iff.mpr hkept.symm)
    rw [hitems]
    refine .array hsets fun states hstates => ?_
    have hmem := List.mem_map_of_mem (f := some) hstates
    rw [hdropped] at hmem
    exact (Option.some.inj (List.eq_of_mem_replicate hmem))
  · intro h
    cases h with
    | @array kept dropped hsets hempty =>
      have hlength : Category.classified.length = kept.length + dropped.length := by
        rw [← List.length_append, ← hsets, List.length_map]
      have hdropped : dropped = List.replicate dropped.length [] := List.eq_replicate_of_mem hempty
      have hkept : (kept.map Value.ofWords).map (fun value => fieldStates? (some value)) =
          kept.map some := by
        rw [List.map_map]
        exact List.map_congr_left fun states _ => fieldStates?_some_eq_some_iff.mpr rfl
      refine ⟨_, ⟨by rw [List.length_map]; omega, rfl⟩, ?_⟩
      rw [List.map_append, List.map_map, List.map_replicate, List.length_map, hlength,
        Nat.add_sub_cancel_left, hsets, List.map_append, hdropped, List.map_replicate,
        List.length_replicate]
      exact congrArg (· ++ _) hkept

/-- Accepting states are read from the values that present them. -/
theorem ofJson?_eq_some_iff_presents {value : Value} {acceptance : Acceptance} :
    ofJson? value = some acceptance ↔ Presents acceptance value := by
  cases value with
  | object members =>
    rw [ofJson?_object_eq_some_iff]
    constructor
    · exact .object
    · rintro ⟨hmembers⟩
      exact hmembers
  | array items => exact ofJson?_array_eq_some_iff
  | _ =>
    constructor
    · intro h
      cases h
    · intro h
      cases h

/-- A document is loaded as accepting states if and only if it spells a value that presents them. -/
theorem ofDocument_eq_ok_iff {document : List UInt8} {acceptance : Acceptance} :
    ofDocument document = .ok acceptance ↔
      ∃ value, Presents acceptance value ∧ SpellsDocument value document := by
  have hread : ofDocument document = .ok acceptance ↔
      (Json.read? document).bind ofJson? = some acceptance := by
    unfold ofDocument
    split
    · next h => simp [h]
    · next h => simp [h]
  rw [hread, Option.bind_eq_some_iff]
  refine exists_congr fun value => ?_
  rw [ofJson?_eq_some_iff_presents, Json.read?_eq_some_iff, and_comm]

/-- A document that is not loaded fails in one way only. -/
theorem ofDocument_eq_error {document : List UInt8}
    (h : ∀ acceptance, ofDocument document ≠ .ok acceptance) :
    ofDocument document = .error .malformedAcceptance := by
  unfold ofDocument at h ⊢
  split
  · next acceptance hok => exact absurd (by rw [hok]) (h acceptance)
  · rfl

/-! ### Near misses -/

/-- Whether a value gives a set for some category: an object as a member, a list as an item. -/
inductive GivesSet (set : Value) : Value → Prop
  /-- A member whose key stands for the name of a category. -/
  | member {members : List (Text × Value)} {key : Text} {category : Category}
    (hcategory : category ∈ Category.classified) (hkey : key.decode? = some category.field)
    (h : (key, set) ∈ members) : GivesSet set (.object members)
  /-- An item of a list. -/
  | item {items : List Value} (h : set ∈ items) : GivesSet set (.array items)

/-- The values that are almost accepting states. -/
inductive NearMiss : Value → Prop
  /-- A category is given twice. -/
  | repeated {members : List (Text × Value)} {category : Category}
    (hcategory : category ∈ Category.classified)
    (h : 2 ≤ members.countP fun member => member.1.decode? = some category.field) :
    NearMiss (.object members)
  /-- What is given for a category is no list, such as null. -/
  | noList {set value : Value} (hset : GivesSet set value) (h : ∀ elements, set ≠ .array elements) :
    NearMiss value
  /-- An element of a set is not written with digits alone, or does not fit into 32 bits. -/
  | noState {elements : List Value} {element value : Value}
    (hset : GivesSet (.array elements) value) (helement : element ∈ elements)
    (h : ∀ n < UInt32.size, element ≠ .natural n) : NearMiss value
  /-- There are more sets than categories. -/
  | tooLong {items : List Value} (h : 8 ≤ items.length) : NearMiss (.array items)

/-- What a presentation gives for a category is a list of states. -/
theorem Presents.exists_eq_ofWords {acceptance : Acceptance} {set value : Value}
    (h : Presents acceptance value) (hset : GivesSet set value) :
    ∃ states : List State, set = .ofWords states := by
  cases h with
  | object hmembers =>
    cases hset with
    | member hcategory hkey hmem => exact ⟨_, hmembers.given _ hcategory _ hmem hkey⟩
  | array =>
    cases hset with
    | item hmem =>
      obtain ⟨states, -, hstates⟩ := List.mem_map.mp hmem
      exact ⟨states, hstates.symm⟩

/-- A near miss presents nothing. -/
theorem not_presents_of_nearMiss {acceptance : Acceptance} {value : Value} (h : NearMiss value) :
    ¬ Presents acceptance value := by
  intro hpresents
  cases h with
  | repeated hcategory htwice =>
    cases hpresents with
    | object hmembers =>
      have honce := hmembers.once _ hcategory
      omega
  | noList hset hother =>
    obtain ⟨states, hstates⟩ := hpresents.exists_eq_ofWords hset
    exact hother _ hstates
  | noState hset helement hother =>
    obtain ⟨states, hstates⟩ := hpresents.exists_eq_ofWords hset
    rw [Value.ofWords, Value.array.injEq] at hstates
    rw [hstates] at helement
    obtain ⟨state, -, hstate⟩ := List.mem_map.mp helement
    exact hother state.toNat state.toNat_lt hstate.symm
  | tooLong hlong =>
    cases hpresents with
    | @array kept dropped hsets =>
      have hlength := congrArg List.length hsets
      have hseven : Category.classified.length = 7 := rfl
      rw [List.length_map, List.length_append, hseven] at hlength
      rw [List.length_map] at hlong
      omega

/-- A number presents nothing. -/
theorem not_presents_of_spellsNumber {acceptance : Acceptance} {value : Value} {text : List UInt8}
    (h : Json.SpellsNumber value text) : ¬ Presents acceptance value := by
  rintro ⟨⟩ <;> cases h

/-- All presentations of accepting states are loaded as them, and nothing else is: neither a near
miss nor a document with more than blank bytes behind its value. -/
theorem ofDocument_exact :
    (∀ (acceptance : Acceptance) (document : List UInt8),
      ofDocument document = .ok acceptance ↔
        ∃ value, Presents acceptance value ∧ SpellsDocument value document) ∧
    (∀ (value : Value) (document : List UInt8), NearMiss value → SpellsDocument value document →
      ofDocument document = .error .malformedAcceptance) ∧
    ∀ (value : Value) (lead spelling trail : List UInt8), Blank lead → Spells value spelling →
      ¬ Blank trail → ofDocument (lead ++ spelling ++ trail) = .error .malformedAcceptance := by
  refine ⟨fun acceptance document => ofDocument_eq_ok_iff, ?_, ?_⟩
  · intro value document hmiss hspells
    refine ofDocument_eq_error fun acceptance hok => ?_
    obtain ⟨found, hpresents, hfound⟩ := ofDocument_eq_ok_iff.mp hok
    rw [← Json.read?_eq_some_iff] at hspells hfound
    obtain rfl : value = found := Option.some.inj (hspells.symm.trans hfound)
    exact not_presents_of_nearMiss hmiss hpresents
  · intro value lead spelling trail hlead hspells htrail
    refine ofDocument_eq_error fun acceptance hok => ?_
    obtain ⟨found, hpresents, hfound⟩ := ofDocument_eq_ok_iff.mp hok
    obtain ⟨text, hnumber⟩ :=
      Json.exists_spellsNumber_of_not_blank hlead hspells htrail (Json.read?_eq_some_iff.mpr hfound)
    exact not_presents_of_spellsNumber hnumber hpresents

/-- Accepting states with a repeated state and the last possible one. -/
def scattered : Acceptance := { identifier := [0], separator := [0xFFFFFFFF, 3, 3] }

/-- Members for the scattered states: out of order, one of them by an escaped name, and with another
member between them that has the name of a category inside. -/
def scatteredMembers : List (Text × Value) :=
  [(Text.ofString "separator", .ofWords [0xFFFFFFFF, 3, 3]),
    (Text.ofString "note", .object [(Text.ofString "operator", .number (Json.ascii "-1.5e2"))]),
    (.escape 0x69 :: Text.ofString "dentifier", .ofWords [0])]

/-- A document of the scattered members. -/
def scatteredDocument : List UInt8 :=
  Json.ascii "\x7b\"separator\" : [4294967295,3, 3],\n\"note\":\t\x7b\"operator\":-1.5e2\x7d,
  \"\\u0069dentifier\":[0]\x7d\r\n"

/-- Members that give a category twice, once by an escaped name. -/
def repeatedMembers : List (Text × Value) :=
  [(Text.ofString "operator", .array [.natural 5]),
    (.escape 0x6F :: Text.ofString "perator", .array [.natural 5])]

/-- A document of the repeated members. -/
def repeatedDocument : List UInt8 :=
  Json.ascii "\x7b\"operator\":[5],\"\\u006Fperator\":[5]\x7d"

/-- The scattered document is loaded as its states; the repeated members are refused, and so is a
list with a bracket too many. -/
theorem ofDocument_exact_scattered :
    (Presents scattered (.object scatteredMembers) ∧
      SpellsDocument (.object scatteredMembers) scatteredDocument ∧
      ofDocument scatteredDocument = .ok scattered) ∧
    (NearMiss (.object repeatedMembers) ∧
      SpellsDocument (.object repeatedMembers) repeatedDocument ∧
      ofDocument repeatedDocument = .error .malformedAcceptance) ∧
    Spells (.array []) (Json.ascii "[]") ∧ ¬ Blank (Json.ascii " ]") ∧
      ofDocument ([] ++ Json.ascii "[]" ++ Json.ascii " ]") = .error .malformedAcceptance := by
  have hgiven : ∀ category ∈ Category.classified, ∀ member ∈ scatteredMembers,
      member.1.decode? = some category.field →
        member.2.words? = some (scattered.states category) := by
    decide +kernel
  have hpresents : Presents scattered (.object scatteredMembers) :=
    .object
      { text := by decide +kernel
        once := by decide +kernel
        given := fun category hcategory member hmember hname =>
          Json.words?_eq_some_iff.mp (hgiven category hcategory member hmember hname)
        omitted := by decide +kernel }
  have hscattered : SpellsDocument (.object scatteredMembers) scatteredDocument := by
    have hread : Json.read? scatteredDocument = some (.object scatteredMembers) := by
      decide +kernel
    exact Json.read?_eq_some_iff.mp hread
  have htwice : 2 ≤ repeatedMembers.countP fun member =>
      member.1.decode? = some Category.operator.field := by
    decide +kernel
  have hmiss : NearMiss (.object repeatedMembers) := .repeated (by decide) htwice
  have hrepeated : SpellsDocument (.object repeatedMembers) repeatedDocument := by
    have hread : Json.read? repeatedDocument = some (.object repeatedMembers) := by
      decide +kernel
    exact Json.read?_eq_some_iff.mp hread
  have hempty : Spells (.array []) (Json.ascii "[]") := .array (.empty Json.blank_nil)
  have htrail : ¬ Blank (Json.ascii " ]") := by
    intro h
    exact absurd (h (Json.code ']') (by decide)) (by decide)
  exact ⟨⟨hpresents, hscattered, (ofDocument_exact.1 _ _).mpr ⟨_, hpresents, hscattered⟩⟩,
    ⟨hmiss, hrepeated, ofDocument_exact.2.1 _ _ hmiss hrepeated⟩,
    hempty, htrail, ofDocument_exact.2.2 _ _ _ _ Json.blank_nil hempty htrail⟩

end TableLexer.Acceptance
