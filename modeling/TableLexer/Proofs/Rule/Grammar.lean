import TableLexer.Proofs.Rule.Layout

/-!
# The grammar of a line of a rule file

What a line says, as relations that speak of no part of the reader: how a line falls into fields,
which fields are numbers of states and names of bytes, what a symbol says, and what fields say
together. The order in which a reader looks at the parts of a line shows in the conditions: a
comment is told before the count of the fields, the count before the states, and the states before a
symbol that would be passed over. Every line falls into fields in one way, and these say one thing,
which is what the reader answers.
-/

namespace TableLexer.LineGrammar

open Layout

/-! ### Fields -/

/-- The reader parts fields at the characters that no field can hold. -/
theorem isBlank_iff {c : Char} : RuleLine.isBlank c = true ↔ c ∈ separators := by
  have hrange : '\x09' ≤ c ∧ c ≤ '\x0d' ↔ 9 ≤ c.toNat ∧ c.toNat ≤ 13 := by
    rw [Char.le_def, Char.le_def, UInt32.le_iff_toNat_le, UInt32.le_iff_toNat_le]
    rfl
  have hcode (d : Char) : c = d ↔ c.toNat = d.toNat := Char.toNat_inj.symm
  simp only [RuleLine.isBlank, separators, gapChars, Bool.or_eq_true, Bool.and_eq_true,
    decide_eq_true_eq, hrange, List.mem_cons, List.not_mem_nil, or_false, hcode]
  have h9 : '\x09'.toNat = 9 := rfl
  have h10 : '\n'.toNat = 10 := rfl
  have h11 : '\x0b'.toNat = 11 := rfl
  have h12 : '\x0c'.toNat = 12 := rfl
  have h13 : '\x0d'.toNat = 13 := rfl
  have h32 : ' '.toNat = 32 := rfl
  omega

/-- A field holds none of the characters at which the reader parts fields. -/
theorem isBlank_eq_false {field : List Char} (h : IsField field) {c : Char} (hc : c ∈ field) :
    RuleLine.isBlank c = false := by
  rw [Bool.eq_false_iff, ne_eq, isBlank_iff]
  exact h.unbroken c hc

/-- Separators in front of a text add no fields. -/
theorem fields_separators_append {run : List Char} (h : ∀ c ∈ run, c ∈ separators)
    (text : List Char) : RuleLine.fields (run ++ text) = RuleLine.fields text := by
  induction run with
  | nil => rfl
  | cons c run ih =>
    have hc : RuleLine.isBlank c = true := isBlank_iff.mpr (h c List.mem_cons_self)
    have hrun : ∀ d ∈ run, d ∈ separators := fun d hd => h d (List.mem_cons_of_mem _ hd)
    rw [← ih hrun, RuleLine.fields, RuleLine.fields]
    simp [List.splitOnP_cons_eq_if_modifyHead, hc]

/-- A field is the first one of a text that it opens, when a separator or the end follows. -/
theorem fields_append {field rest : List Char} (hfield : IsField field)
    (hend : ∀ c ∈ rest.head?, c ∈ separators) :
    RuleLine.fields (field ++ rest) = field :: RuleLine.fields rest := by
  have hsolid : ∀ c ∈ field, RuleLine.isBlank c = false := fun c hc => isBlank_eq_false hfield hc
  have hne := hfield.ne_nil
  cases rest with
  | nil => simp [RuleLine.fields, List.splitOnP_eq_singleton hsolid, hne]
  | cons c rest =>
    have hc : c ∈ separators := hend c rfl
    have hsplit :=
      List.splitOnP_append_cons_of_forall_mem hsolid c (isBlank_iff.mpr hc) rest
    have hrest : RuleLine.fields (c :: rest) = RuleLine.fields rest :=
      fields_separators_append (List.forall_mem_singleton.mpr hc) rest
    rw [hrest, RuleLine.fields, hsplit, RuleLine.fields,
      List.filter_cons_of_pos (by simpa using hne)]

/-- A line falls into fields: they are its maximal runs without separators. -/
inductive FallsInto : List Char → List (List Char) → Prop
  /-- A line of separators has no fields. -/
  | blank {gap : List Char} (hgap : ∀ c ∈ gap, c ∈ separators) : FallsInto gap []
  /-- Behind separators there is a field, up to the next separator or the end of the line. -/
  | field {gap field rest : List Char} {fields : List (List Char)}
      (hgap : ∀ c ∈ gap, c ∈ separators) (hfield : IsField field)
      (hend : ∀ c ∈ rest.head?, c ∈ separators) (h : FallsInto rest fields) :
      FallsInto (gap ++ (field ++ rest)) (field :: fields)

/-- A separator in front of a line does not change its fields. -/
theorem FallsInto.cons_separator {c : Char} (hc : c ∈ separators) {line : List Char}
    {fields : List (List Char)} (h : FallsInto line fields) : FallsInto (c :: line) fields := by
  cases h with
  | blank hgap => exact .blank (List.forall_mem_cons.mpr ⟨hc, hgap⟩)
  | @field gap field rest fields hgap hfield hend hrest =>
    have hcons : ∀ d ∈ c :: gap, d ∈ separators := List.forall_mem_cons.mpr ⟨hc, hgap⟩
    exact .field hcons hfield hend hrest

/-- Nor does one behind it. -/
theorem FallsInto.append_separator {c : Char} (hc : c ∈ separators) {line : List Char}
    {fields : List (List Char)} (h : FallsInto line fields) : FallsInto (line ++ [c]) fields := by
  induction h with
  | blank hgap => exact .blank (List.forall_mem_append.mpr ⟨hgap, List.forall_mem_singleton.mpr hc⟩)
  | @field gap field rest fields hgap hfield hend _ ih =>
    have hend' : ∀ d ∈ (rest ++ [c]).head?, d ∈ separators := by
      cases rest with
      | nil =>
        rintro d ⟨⟩
        exact hc
      | cons first more => exact hend
    rw [List.append_assoc, List.append_assoc]
    exact .field hgap hfield hend' ih

/-- Any other character in front of a line opens its first field. -/
theorem FallsInto.exists_cons {c : Char} (hc : c ∉ separators) {line : List Char}
    {fields : List (List Char)} (h : FallsInto line fields) :
    ∃ rest later, FallsInto (c :: line) ((c :: rest) :: later) := by
  have hnone : ∀ d ∈ ([] : List Char), d ∈ separators := List.forall_mem_nil _
  have hsingle : IsField [c] := ⟨List.cons_ne_nil _ _, List.forall_mem_singleton.mpr hc⟩
  -- a field of its own in front of separators, and else the front of the field that follows
  cases h with
  | blank hgap =>
    have hend : ∀ d ∈ line.head?, d ∈ separators := fun d hd => hgap d (List.mem_of_mem_head? hd)
    exact ⟨[], [], .field hnone hsingle hend (.blank hgap)⟩
  | @field gap field rest fields hgap hfield hend hrest =>
    cases gap with
    | nil =>
      have hlonger : IsField (c :: field) :=
        ⟨List.cons_ne_nil _ _, List.forall_mem_cons.mpr ⟨hc, hfield.unbroken⟩⟩
      exact ⟨field, _, .field hnone hlonger hend hrest⟩
    | cons d gap =>
      have hd : ∀ e ∈ (d :: gap ++ (field ++ rest)).head?, e ∈ separators := by
        intro e he
        obtain rfl := Option.some.inj he
        exact hgap d List.mem_cons_self
      exact ⟨[], _, .field hnone hsingle hd (.field hgap hfield hend hrest)⟩

/-- Every line falls into fields. -/
theorem exists_fallsInto (line : List Char) : ∃ fields, FallsInto line fields := by
  induction line with
  | nil => exact ⟨[], .blank (List.forall_mem_nil _)⟩
  | cons c line ih =>
    obtain ⟨fields, hfields⟩ := ih
    by_cases hc : c ∈ separators
    · exact ⟨fields, hfields.cons_separator hc⟩
    · obtain ⟨rest, later, hcons⟩ := hfields.exists_cons hc
      exact ⟨_, hcons⟩

/-- The fields into which a line falls are those that are read. -/
theorem FallsInto.fields_eq {line : List Char} {fields : List (List Char)}
    (h : FallsInto line fields) : RuleLine.fields line = fields := by
  induction h with
  | @blank gap hgap =>
    have hread := fields_separators_append hgap []
    rwa [List.append_nil] at hread
  | field hgap hfield hend _ ih =>
    rw [fields_separators_append hgap, fields_append hfield hend, ih]

/-- The reader takes a line apart into the fields that it falls into. -/
theorem fallsInto_iff {line : List Char} {fields : List (List Char)} :
    FallsInto line fields ↔ RuleLine.fields line = fields := by
  constructor
  · exact FallsInto.fields_eq
  · rintro rfl
    obtain ⟨fields, hfields⟩ := exists_fallsInto line
    rwa [hfields.fields_eq]

/-- A separator at the end of a line adds no field. -/
theorem fields_append_separator (line : List Char) {c : Char} (hc : c ∈ separators) :
    RuleLine.fields (line ++ [c]) = RuleLine.fields line := by
  obtain ⟨fields, hfields⟩ := exists_fallsInto line
  rw [(hfields.append_separator hc).fields_eq, hfields.fields_eq]

/-! ### Numbers of states -/

/-- Decimal digits that are the number of a state. The code of a missing edge is none. -/
structure IsNumber (state : State) (digits : List Char) : Prop where
  /-- There is a digit at least. -/
  ne_nil : digits ≠ []
  /-- There are digits only. -/
  isDigit : ∀ c ∈ digits, c.isDigit
  /-- They have the value of the number. -/
  value_eq : Nat.ofDigitChars 10 digits 0 = state.toNat
  /-- The number is that of a state. -/
  le : state.toNat ≤ 4294967294

/-- A field is the number of a state, with a plus sign in front of the digits or without one. -/
inductive NamesState (state : State) : List Char → Prop
  /-- Without a plus sign. -/
  | plain {digits : List Char} (h : IsNumber state digits) : NamesState state digits
  /-- With a plus sign. -/
  | signed {digits : List Char} (h : IsNumber state digits) : NamesState state ('+' :: digits)

/-- All codes but the largest are states. -/
theorem state_lt_noEdge_iff {state : State} : state < State.noEdge ↔ state.toNat ≤ 4294967294 := by
  have hcode : State.noEdge.toNat = 4294967295 := rfl
  rw [UInt32.lt_iff_toNat_lt, hcode]
  omega

/-- A text of digits, with a plus sign in front of it or without one, is read as its value. -/
theorem state?_of_digits {digits : List Char} (hne : digits ≠ [])
    (hdigits : ∀ c ∈ digits, c.isDigit) {state : State} (hstate : state < State.noEdge)
    (hvalue : Nat.ofDigitChars 10 digits 0 = state.toNat) :
    RuleLine.state? digits = some state ∧ RuleLine.state? ('+' :: digits) = some state := by
  have hbelow : state.toNat < State.noEdge.toNat := UInt32.lt_iff_toNat_lt.mp hstate
  have hall : digits.all Char.isDigit = true := List.all_eq_true.mpr hdigits
  have hunsigned : ∀ tail, digits ≠ '+' :: tail := by
    rintro tail rfl
    exact absurd (hdigits '+' List.mem_cons_self) (by decide)
  constructor
  · unfold RuleLine.state?
    split
    · next tail => exact absurd rfl (hunsigned tail)
    · simp [hvalue, hall, hne, hbelow]
  · simp [RuleLine.state?, hvalue, hall, hne, hbelow]

/-- Digits that pass the test of the reader are the number of the state that it makes of them. -/
theorem isNumber_of_test {digits : List Char}
    (h : (!digits.isEmpty && digits.all Char.isDigit &&
      decide (Nat.ofDigitChars 10 digits 0 < State.noEdge.toNat)) = true) :
    IsNumber (Nat.ofDigitChars 10 digits 0).toUInt32 digits := by
  have hcode : State.noEdge.toNat = 4294967295 := rfl
  have hsize : UInt32.size = 4294967296 := rfl
  simp only [Bool.and_eq_true, Bool.not_eq_true', List.isEmpty_eq_false_iff, List.all_eq_true,
    decide_eq_true_eq, hcode] at h
  obtain ⟨⟨hne, hdigits⟩, hlt⟩ := h
  have hvalue : (Nat.ofDigitChars 10 digits 0).toUInt32.toNat = Nat.ofDigitChars 10 digits 0 :=
    UInt32.toNat_ofNat_of_lt' (by omega)
  exact ⟨hne, hdigits, hvalue.symm, by omega⟩

/-- A field is read as a state if it names the state. -/
theorem state?_eq_some_iff {field : List Char} {state : State} :
    RuleLine.state? field = some state ↔ NamesState state field := by
  constructor
  · intro h
    unfold RuleLine.state? at h
    split at h <;> simp only at h <;> split at h
    · next htest =>
      obtain rfl := Option.some.inj h
      exact .signed (isNumber_of_test htest)
    · cases h
    · next htest =>
      obtain rfl := Option.some.inj h
      exact .plain (isNumber_of_test htest)
    · cases h
  · intro h
    cases h with
    | plain hnumber =>
      have hlt := state_lt_noEdge_iff.mpr hnumber.le
      exact (state?_of_digits hnumber.ne_nil hnumber.isDigit hlt hnumber.value_eq).1
    | signed hnumber =>
      have hlt := state_lt_noEdge_iff.mpr hnumber.le
      exact (state?_of_digits hnumber.ne_nil hnumber.isDigit hlt hnumber.value_eq).2

/-! ### Symbols -/

/-- A field stands for a byte: it is the character of the byte, or the name of the byte. -/
inductive NamesByte (b : UInt8) : List Char → Prop
  /-- The character with the code of the byte. -/
  | char {c : Char} (h : c.toNat = b.toNat) : NamesByte b [c]
  /-- The name. -/
  | name {name : String} (h : ByteName b name) : NamesByte b name.toList

/-- What the third field of a line says, given the fields behind it: a symbol, that the line is
passed over, or a fault. -/
inductive SymbolSays :
    List Char → List (List Char) → Except RuleFault (Except Ignored Symbol) → Prop
  /-- The character or the name of a byte. -/
  | byte {b : UInt8} {field : List Char} {more : List (List Char)} (h : NamesByte b field) :
    SymbolSays field more (.ok (.ok (.byte b)))
  /-- A character past U+00FF is passed over. -/
  | wide {c : Char} {more : List (List Char)} (h : 0xFF < c.toNat) :
    SymbolSays [c] more (.ok (.error (.outsideByteRange (String.singleton c))))
  /-- The letters. -/
  | letter {more : List (List Char)} : SymbolSays "JL".toList more (.ok (.ok .letter))
  /-- The characters that only continue an identifier. -/
  | digitLike {more : List (List Char)} : SymbolSays "JD".toList more (.ok (.ok .digitLike))
  /-- The separators. -/
  | separator {more : List (List Char)} : SymbolSays "sep".toList more (.ok (.ok .separator))
  /-- An exclusion of nothing is a fault. -/
  | missing : SymbolSays "no".toList [] (.error .missingExclusion)
  /-- An exclusion of a byte. -/
  | exclude {b : UInt8} {field : List Char} {more : List (List Char)} (h : NamesByte b field) :
    SymbolSays "no".toList (field :: more) (.ok (.ok (.exclude b)))
  /-- An exclusion of a character past U+00FF leaves all bytes. -/
  | any {c : Char} {more : List (List Char)} (h : 0xFF < c.toNat) :
    SymbolSays "no".toList ([c] :: more) (.ok (.ok .any))
  /-- An exclusion of any other name is a fault. -/
  | unknownExcluded {name : List Char} {more : List (List Char)} (hlength : name.length ≠ 1)
      (hname : ∀ b, ¬NamesByte b name) :
    SymbolSays "no".toList (name :: more) (.error (.unknownSymbol (String.ofList name)))
  /-- Any other name is passed over. -/
  | unknown {name : List Char} {more : List (List Char)} (hlength : name.length ≠ 1)
      (hname : ∀ b, ¬NamesByte b name)
      (hclass : name ∉ ["JL".toList, "JD".toList, "sep".toList, "no".toList]) :
    SymbolSays name more (.ok (.error (.unknownToken (String.ofList name))))

/-- A name is read as the byte that has it. -/
theorem named?_eq_some_iff {name : String} {b : UInt8} :
    ByteClass.named? name = some b ↔ ByteName b name := by
  constructor
  · intro h
    obtain ⟨before, after, hsplit, -⟩ := List.lookup_eq_some_iff.mp h
    have hmem : (name, b) ∈ before ++ (name, b) :: after :=
      List.mem_append_right _ List.mem_cons_self
    rw [← hsplit] at hmem
    simp only [List.mem_cons, Prod.mk.injEq, List.not_mem_nil, or_false] at hmem
    rcases hmem with ⟨rfl, rfl⟩ | ⟨rfl, rfl⟩ | ⟨rfl, rfl⟩ | ⟨rfl, rfl⟩ | ⟨rfl, rfl⟩ | ⟨rfl, rfl⟩ |
      ⟨rfl, rfl⟩
    · exact .lf
    · exact .ff
    · exact .cr
    · exact .space
    · exact .ht
    · exact .vt
    · exact .bs
  · intro h
    cases h <;> rfl

/-- A character is read as the byte of the same code. -/
theorem byte?_eq_some_iff {c : Char} {b : UInt8} :
    RuleLine.byte? c = some b ↔ c.toNat = b.toNat := by
  have hb : b.toNat < 256 := b.toNat_lt
  unfold RuleLine.byte?
  split
  · next hlt =>
    have hcode : c.toNat.toUInt8.toNat = c.toNat := UInt8.toNat_ofNat_of_lt' hlt
    rw [Option.some.injEq, ← UInt8.toNat_inj, hcode]
  · constructor
    · intro h
      cases h
    · intro h
      omega

/-- Only characters above U+00FF are read as no byte. -/
theorem byte?_eq_none_iff {c : Char} : RuleLine.byte? c = none ↔ 0xFF < c.toNat := by
  unfold RuleLine.byte?
  split
  · constructor
    · intro h
      cases h
    · intro h
      omega
  · simp only [true_iff]
    omega

/-- A field of more than one character stands for a byte by its name only. -/
theorem namesByte_iff {name : List Char} (hlength : name.length ≠ 1) {b : UInt8} :
    NamesByte b name ↔ ByteClass.named? (String.ofList name) = some b := by
  rw [named?_eq_some_iff]
  constructor
  · intro h
    cases h with
    | char _ => exact absurd rfl hlength
    | name hname => rwa [String.ofList_toList]
  · intro h
    have hnames := NamesByte.name h
    rwa [String.toList_ofList] at hnames

/-- A field stands for a byte, or it is a single character that is none, or a name that means no
byte. -/
theorem field_cases (field : List Char) :
    (∃ b, NamesByte b field) ∨ (∃ c, field = [c] ∧ 0xFF < c.toNat) ∨
      (field.length ≠ 1 ∧ ∀ b, ¬NamesByte b field) := by
  by_cases hlength : field.length = 1
  · obtain ⟨c, rfl⟩ := List.length_eq_one_iff.mp hlength
    cases hbyte : RuleLine.byte? c with
    | some b => exact Or.inl ⟨b, .char (byte?_eq_some_iff.mp hbyte)⟩
    | none => exact Or.inr (Or.inl ⟨c, rfl, byte?_eq_none_iff.mp hbyte⟩)
  · by_cases hnames : ∃ b, NamesByte b field
    · exact Or.inl hnames
    · exact Or.inr (Or.inr ⟨hlength, not_exists.mp hnames⟩)

/-! #### Reading a symbol -/

/-- A field that names a byte excludes it. -/
theorem NamesByte.readExcluded_eq {b : UInt8} {field : List Char} (h : NamesByte b field) :
    RuleLine.readExcluded field = .ok (.exclude b) := by
  cases h with
  | char hcode => simp only [RuleLine.readExcluded, byte?_eq_some_iff.mpr hcode]
  | name hname => cases hname <;> rfl

/-- A character above U+00FF excludes no byte, so all bytes are left. -/
theorem readExcluded_of_wide {c : Char} (h : 0xFF < c.toNat) :
    RuleLine.readExcluded [c] = .ok .any := by
  simp only [RuleLine.readExcluded, byte?_eq_none_iff.mpr h]

/-- A name of no byte cannot be excluded. -/
theorem readExcluded_of_unknown {name : List Char} (hlength : name.length ≠ 1)
    (hname : ∀ b, ¬NamesByte b name) :
    RuleLine.readExcluded name = .error (.unknownSymbol (String.ofList name)) := by
  unfold RuleLine.readExcluded
  split
  · exact absurd rfl hlength
  · split
    · next b hfound => exact absurd ((namesByte_iff hlength).mpr hfound) (hname b)
    · rfl

/-- A field that names a byte is the symbol of the byte. -/
theorem NamesByte.readSymbol_eq {b : UInt8} {field : List Char} (h : NamesByte b field)
    (more : List (List Char)) : RuleLine.readSymbol field more = .ok (.ok (.byte b)) := by
  cases h with
  | char hcode => simp only [RuleLine.readSymbol, byte?_eq_some_iff.mpr hcode]
  | name hname => cases hname <;> rfl

/-- A name of no byte and of no class is passed over. -/
theorem readSymbol_of_unknown {name : List Char} (hlength : name.length ≠ 1)
    (hname : ∀ b, ¬NamesByte b name)
    (hclass : name ∉ ["JL".toList, "JD".toList, "sep".toList, "no".toList])
    (more : List (List Char)) :
    RuleLine.readSymbol name more = .ok (.error (.unknownToken (String.ofList name))) := by
  have hne : ∀ text : String, text.toList ∈ ["JL".toList, "JD".toList, "sep".toList, "no".toList] →
      String.ofList name ≠ text := by
    intro text hmem heq
    have hsame : name = text.toList := by rw [← heq, String.toList_ofList]
    exact hclass (hsame ▸ hmem)
  unfold RuleLine.readSymbol
  split
  · exact absurd rfl hlength
  · split
    · next heq => exact absurd heq (hne _ (by simp))
    · next heq => exact absurd heq (hne _ (by simp))
    · next heq => exact absurd heq (hne _ (by simp))
    · next heq => exact absurd heq (hne _ (by simp))
    · split
      · next b hfound => exact absurd ((namesByte_iff hlength).mpr hfound) (hname b)
      · rfl

/-- An exclusion is read off the field behind its own. -/
theorem readSymbol_no (field : List Char) (more : List (List Char)) :
    RuleLine.readSymbol "no".toList (field :: more) = (RuleLine.readExcluded field).map .ok := rfl

/-- What the third field says is what is read. -/
theorem SymbolSays.readSymbol_eq {field : List Char} {more : List (List Char)}
    {answer : Except RuleFault (Except Ignored Symbol)} (h : SymbolSays field more answer) :
    RuleLine.readSymbol field more = answer := by
  cases h with
  | byte hbyte => exact hbyte.readSymbol_eq more
  | wide hwide => simp only [RuleLine.readSymbol, byte?_eq_none_iff.mpr hwide]
  | letter => rfl
  | digitLike => rfl
  | separator => rfl
  | missing => rfl
  | exclude hbyte =>
    rw [readSymbol_no, hbyte.readExcluded_eq]
    rfl
  | any hwide =>
    rw [readSymbol_no, readExcluded_of_wide hwide]
    rfl
  | unknownExcluded hlength hname =>
    rw [readSymbol_no, readExcluded_of_unknown hlength hname]
    rfl
  | unknown hlength hname hclass => exact readSymbol_of_unknown hlength hname hclass more

/-- Every third field says something. -/
theorem exists_symbolSays (field : List Char) (more : List (List Char)) :
    ∃ answer, SymbolSays field more answer := by
  rcases field_cases field with ⟨b, hbyte⟩ | ⟨c, rfl, hwide⟩ | ⟨hlength, hname⟩
  · exact ⟨_, .byte hbyte⟩
  · exact ⟨_, .wide hwide⟩
  · by_cases hclass : field ∈ ["JL".toList, "JD".toList, "sep".toList, "no".toList]
    · simp only [List.mem_cons, List.not_mem_nil, or_false] at hclass
      rcases hclass with rfl | rfl | rfl | rfl
      · exact ⟨_, .letter⟩
      · exact ⟨_, .digitLike⟩
      · exact ⟨_, .separator⟩
      · cases more with
        | nil => exact ⟨_, .missing⟩
        | cons excluded more =>
          rcases field_cases excluded with ⟨b, hbyte⟩ | ⟨c, rfl, hwide⟩ | ⟨hlength, hname⟩
          · exact ⟨_, .exclude hbyte⟩
          · exact ⟨_, .any hwide⟩
          · exact ⟨_, .unknownExcluded hlength hname⟩
    · exact ⟨_, .unknown hlength hname hclass⟩

/-! ### Lines -/

/-- What the fields of a line say. -/
inductive Says : List (List Char) → Except RuleFault RuleLine → Prop
  /-- Without fields a line says nothing. -/
  | nothing : Says [] (.ok .blank)
  /-- A first field that opens with a number sign makes a comment. -/
  | comment {text : List Char} {later : List (List Char)} :
    Says (('#' :: text) :: later) (.ok .blank)
  /-- Otherwise there have to be three fields at least. -/
  | missing {first : List Char} {later : List (List Char)} (hopen : first.head? ≠ some '#')
    (hfew : (first :: later).length < 3) :
    Says (first :: later) (.error (.missingField (first :: later).length))
  /-- The first one has to be the number of a state. -/
  | badSource {source target third : List Char} {more : List (List Char)}
    (hopen : source.head? ≠ some '#') (hsource : ∀ state, ¬NamesState state source) :
    Says (source :: target :: third :: more) (.error (.badState (String.ofList source)))
  /-- Then so has the second one. -/
  | badTarget {source target third : List Char} {more : List (List Char)} {start : State}
    (hsource : NamesState start source) (htarget : ∀ state, ¬NamesState state target) :
    Says (source :: target :: third :: more) (.error (.badState (String.ofList target)))
  /-- Then the third one may be at fault. -/
  | faulty {source target third : List Char} {more : List (List Char)} {start final : State}
    {fault : RuleFault} (hsource : NamesState start source) (htarget : NamesState final target)
    (hthird : SymbolSays third more (.error fault)) :
    Says (source :: target :: third :: more) (.error fault)
  /-- Or it makes the line to be passed over. -/
  | ignored {source target third : List Char} {more : List (List Char)} {start final : State}
    {reason : Ignored} (hsource : NamesState start source) (htarget : NamesState final target)
    (hthird : SymbolSays third more (.ok (.error reason))) :
    Says (source :: target :: third :: more) (.ok (.ignored reason))
  /-- Or it is a symbol, and the line says a rule. -/
  | rule {source target third : List Char} {more : List (List Char)} {start final : State}
    {symbol : Symbol} (hsource : NamesState start source) (htarget : NamesState final target)
    (hthird : SymbolSays third more (.ok (.ok symbol))) :
    Says (source :: target :: third :: more) (.ok (.rule ⟨start, final, symbol⟩))

/-- The number of a state does not open a comment. -/
theorem NamesState.head?_ne {state : State} {field : List Char} (h : NamesState state field) :
    field.head? ≠ some '#' := by
  cases h with
  | plain hnumber =>
    intro hopen
    exact absurd (hnumber.isDigit _ (List.mem_of_mem_head? hopen)) (by decide)
  | signed _ =>
    intro hopen
    exact absurd (Option.some.inj hopen) (by decide)

/-- A field that names a state is read as the state. -/
theorem NamesState.readState_eq {state : State} {field : List Char} (h : NamesState state field) :
    RuleLine.readState field = .ok state := by
  simp only [RuleLine.readState, state?_eq_some_iff.mpr h]

/-- A field that names no state is told with its text. -/
theorem readState_of_not_namesState {field : List Char} (h : ∀ state, ¬NamesState state field) :
    RuleLine.readState field = .error (.badState (String.ofList field)) := by
  unfold RuleLine.readState
  split
  · next state hstate => exact absurd (state?_eq_some_iff.mp hstate) (h state)
  · rfl

/-- What the reader makes of the symbol of a line between two states. -/
def ofSymbol (start final : State) : Except Ignored Symbol → RuleLine
  | .ok symbol => .rule ⟨start, final, symbol⟩
  | .error reason => .ignored reason

/-- Of three fields and more, the reader reads the first two as states and then the third. -/
theorem ofFields_of_three {source : List Char} (hopen : source.head? ≠ some '#')
    (target third : List Char) (more : List (List Char)) :
    RuleLine.ofFields (source :: target :: third :: more) =
      (RuleLine.readState source).bind fun start => (RuleLine.readState target).bind fun final =>
        (RuleLine.readSymbol third more).map (ofSymbol start final) := by
  unfold RuleLine.ofFields
  split
  · next heq => cases heq
  · next heq =>
    obtain rfl := (List.cons.inj heq).1
    exact absurd rfl hopen
  · next heq =>
    cases heq
    cases RuleLine.readState source with
    | error fault => rfl
    | ok start =>
      cases RuleLine.readState target with
      | error fault => rfl
      | ok final =>
        cases RuleLine.readSymbol third more with
        | error fault => rfl
        | ok answer => cases answer <;> rfl
  · next hthree => exact absurd rfl (hthree _ _ _ _)

/-- Fewer than three fields are told with their number. -/
theorem ofFields_of_few {first : List Char} {later : List (List Char)}
    (hopen : first.head? ≠ some '#') (hfew : (first :: later).length < 3) :
    RuleLine.ofFields (first :: later) = .error (.missingField (first :: later).length) := by
  unfold RuleLine.ofFields
  split
  · next heq => cases heq
  · next heq =>
    obtain rfl := (List.cons.inj heq).1
    exact absurd rfl hopen
  · next heq =>
    rw [heq] at hfew
    simp only [List.length_cons] at hfew
    omega
  · rfl

/-- What the fields of a line say is what is read. -/
theorem Says.ofFields_eq {fields : List (List Char)} {answer : Except RuleFault RuleLine}
    (h : Says fields answer) : RuleLine.ofFields fields = answer := by
  cases h with
  | nothing => rfl
  | comment => rfl
  | missing hopen hfew => exact ofFields_of_few hopen hfew
  | badSource hopen hsource =>
    rw [ofFields_of_three hopen, readState_of_not_namesState hsource]
    rfl
  | badTarget hsource htarget =>
    rw [ofFields_of_three hsource.head?_ne, hsource.readState_eq,
      readState_of_not_namesState htarget]
    rfl
  | faulty hsource htarget hthird =>
    rw [ofFields_of_three hsource.head?_ne, hsource.readState_eq, htarget.readState_eq,
      hthird.readSymbol_eq]
    rfl
  | ignored hsource htarget hthird =>
    rw [ofFields_of_three hsource.head?_ne, hsource.readState_eq, htarget.readState_eq,
      hthird.readSymbol_eq]
    rfl
  | rule hsource htarget hthird =>
    rw [ofFields_of_three hsource.head?_ne, hsource.readState_eq, htarget.readState_eq,
      hthird.readSymbol_eq]
    rfl

/-- All fields say something. -/
theorem exists_says (fields : List (List Char)) : ∃ answer, Says fields answer := by
  cases fields with
  | nil => exact ⟨_, .nothing⟩
  | cons first later =>
    by_cases hopen : first.head? = some '#'
    · obtain ⟨text, rfl⟩ := List.head?_eq_some_iff.mp hopen
      exact ⟨_, .comment⟩
    · cases later with
      | nil => exact ⟨_, .missing hopen (by simp)⟩
      | cons target later =>
        cases later with
        | nil => exact ⟨_, .missing hopen (by simp)⟩
        | cons third more =>
          by_cases hsource : ∃ start, NamesState start first
          · obtain ⟨start, hsource⟩ := hsource
            by_cases htarget : ∃ final, NamesState final target
            · obtain ⟨final, htarget⟩ := htarget
              obtain ⟨answer, hthird⟩ := exists_symbolSays third more
              cases answer with
              | error fault => exact ⟨_, .faulty hsource htarget hthird⟩
              | ok said =>
                cases said with
                | error reason => exact ⟨_, .ignored hsource htarget hthird⟩
                | ok symbol => exact ⟨_, .rule hsource htarget hthird⟩
            · exact ⟨_, .badTarget hsource (not_exists.mp htarget)⟩
          · exact ⟨_, .badSource hopen (not_exists.mp hsource)⟩

/-- The reader answers what the fields of a line say. -/
theorem says_iff {fields : List (List Char)} {answer : Except RuleFault RuleLine} :
    Says fields answer ↔ RuleLine.ofFields fields = answer := by
  constructor
  · exact Says.ofFields_eq
  · rintro rfl
    obtain ⟨answer, hanswer⟩ := exists_says fields
    rwa [hanswer.ofFields_eq]

/-! ### Lines with their numbers -/

/-- What comes of a line with a number, given what the line says: a rule or none, and a fault or a
warning with the number. Only a line that is passed over gives a warning. -/
def told (number : Nat) : Except RuleFault RuleLine → RuleFile
  | .error fault => ⟨[], .error ⟨number, fault⟩⟩
  | .ok .blank => ⟨[], .ok []⟩
  | .ok (.rule rule) => ⟨[], .ok [rule]⟩
  | .ok (.ignored reason) => ⟨[⟨number, reason⟩], .ok []⟩

/-- What comes of a single line is told of the line alone. -/
theorem readLines_singleton (number : Nat) (line : List Char) :
    RuleFile.readLines number [line] = told number (RuleLine.read line) := by
  unfold RuleFile.readLines told
  cases RuleLine.read line with
  | error fault => rfl
  | ok said => cases said <;> rfl

/-- From what comes of a line it can be told what the line says. -/
theorem told_injective (number : Nat) : Function.Injective (told number) := by
  intro left right h
  match left, right with
  | .error _, .error _ | .ok .blank, .ok .blank | .ok (.rule _), .ok (.rule _)
  | .ok (.ignored _), .ok (.ignored _) =>
    cases h
    rfl

/-- A line falls into fields in one way. They say one thing, which is what the reader answers for
the line; and as a line with a number it gives the rule that it says, or a fault with the number, or
a warning with the number if it is passed over, or nothing. -/
theorem read_line_iff (number : Nat) (line : List Char) :
    ∃ fields, (∀ other, FallsInto line other ↔ other = fields) ∧
      ∀ answer, (RuleLine.read line = answer ↔ Says fields answer) ∧
        (RuleFile.readLines number [line] = told number answer ↔ Says fields answer) := by
  refine ⟨RuleLine.fields line, fun other => ?_, fun answer => ?_⟩
  · rw [fallsInto_iff, eq_comm]
  · have hread : RuleLine.read line = answer ↔ Says (RuleLine.fields line) answer := says_iff.symm
    refine ⟨hread, ?_⟩
    rw [readLines_singleton, (told_injective number).eq_iff, hread]

/-- Of two faults the leftmost is told, before a symbol that would be passed over. -/
example : RuleLine.read "\t+00 4294967295 JX\x0b".toList = .error (.badState "4294967295") := by
  rfl

end TableLexer.LineGrammar
