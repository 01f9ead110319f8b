import TableLexer.Rule.File

/-!
# Layouts of rule files

The texts that say a list of rules, as a relation between the two. A text leaves its writer free in
how numbers and bytes are spelled, how fields are set apart, how lines end, and where blank lines
and comments stand; the relation allows all of that and speaks of no part of the reader.
-/

namespace TableLexer.Layout

/-- The characters that set the fields of a line apart: the space, HT, VT, FF and CR. -/
def gapChars : List Char := [' ', '\x09', '\x0b', '\x0c', '\x0d']

/-- A run, which may be empty, of characters that set fields apart. -/
def IsGap (run : List Char) : Prop := ∀ c ∈ run, c ∈ gapChars

instance (run : List Char) : Decidable (IsGap run) :=
  List.decidableBAll (· ∈ gapChars) run

/-- The characters that no field can hold: those that set fields apart, and LF. -/
def separators : List Char := '\n' :: gapChars

/-- A text that can stand as a field of a line. -/
structure IsField (field : List Char) : Prop where
  /-- A field holds something. -/
  ne_nil : field ≠ []
  /-- A field is not broken up. -/
  unbroken : ∀ c ∈ field, c ∉ separators

instance (field : List Char) : Decidable (IsField field) :=
  have := List.decidableBAll (· ∉ separators) field
  decidable_of_iff (field ≠ [] ∧ ∀ c ∈ field, c ∉ separators)
    ⟨fun h => ⟨h.1, h.2⟩, fun h => ⟨h.ne_nil, h.unbroken⟩⟩

/-- The spellings of the number of a state: decimal digits behind any number of zeros, with or
without a plus sign. -/
inductive WritesState (state : State) : List Char → Prop
  /-- Without a plus sign. -/
  | plain (zeros : Nat) :
    WritesState state (List.replicate zeros '0' ++ Nat.toDigits 10 state.toNat)
  /-- With a plus sign. -/
  | signed (zeros : Nat) :
    WritesState state ('+' :: (List.replicate zeros '0' ++ Nat.toDigits 10 state.toNat))

/-- A rule that goes from a state to a state: neither number is the code of a missing edge. -/
structure BetweenStates (rule : Rule) : Prop where
  /-- The source is a state. -/
  source_lt : rule.source < State.noEdge
  /-- The target is a state. -/
  target_lt : rule.target < State.noEdge

/-- The bytes that have a name, and their names. -/
inductive ByteName : UInt8 → String → Prop
  /-- The line feed. -/
  | lf : ByteName 0x0A "LF"
  /-- The form feed. -/
  | ff : ByteName 0x0C "FF"
  /-- The carriage return. -/
  | cr : ByteName 0x0D "CR"
  /-- The space. -/
  | space : ByteName 0x20 "space"
  /-- The horizontal tab. -/
  | ht : ByteName 0x09 "HT"
  /-- The vertical tab. -/
  | vt : ByteName 0x0B "VT"
  /-- The backspace. -/
  | bs : ByteName 0x08 "BS"

/-- The spellings of a byte: the character of its code, when a field can hold that, and its name,
when it has one. -/
inductive WritesByte (b : UInt8) : List Char → Prop
  /-- As the character of its code. -/
  | literal (h : Char.ofUInt8 b ∉ separators) : WritesByte b [Char.ofUInt8 b]
  /-- By its name. -/
  | named {name : String} (h : ByteName b name) : WritesByte b name.toList

/-- The spellings of a symbol, in one field or two. -/
inductive WritesSymbol : Symbol → List (List Char) → Prop
  /-- A byte. -/
  | byte {b : UInt8} {field : List Char} (h : WritesByte b field) : WritesSymbol (.byte b) [field]
  /-- The letters. -/
  | letter : WritesSymbol .letter ["JL".toList]
  /-- The characters that only continue an identifier. -/
  | digitLike : WritesSymbol .digitLike ["JD".toList]
  /-- The separators. -/
  | separator : WritesSymbol .separator ["sep".toList]
  /-- All bytes but one. -/
  | exclude {b : UInt8} {field : List Char} (h : WritesByte b field) :
    WritesSymbol (.exclude b) ["no".toList, field]
  /-- All bytes, as the exclusion of a character that is no byte. -/
  | any {c : Char} (h : 0xFF < c.toNat) : WritesSymbol .any ["no".toList, [c]]

/-- Fields in their order, with a gap between every two of them, and behind the last one a gap that
may be empty. -/
inductive Spaced : List (List Char) → List Char → Prop
  /-- The last field. -/
  | last {field gap : List Char} (hgap : IsGap gap) : Spaced [field] (field ++ gap)
  /-- A field in front of others. -/
  | cons {field gap text : List Char} {fields : List (List Char)} (hgap : IsGap gap)
    (hne : gap ≠ []) (h : Spaced fields text) : Spaced (field :: fields) (field ++ gap ++ text)

/-- The lines that say a rule: behind a gap, its two states, its symbol, and any fields more. -/
inductive WritesRule (rule : Rule) : List Char → Prop
  /-- The fields of the rule, set apart. -/
  | fields {lead source target text : List Char} {symbol more : List (List Char)}
    (hlead : IsGap lead) (hsource : WritesState rule.source source)
    (htarget : WritesState rule.target target) (hsymbol : WritesSymbol rule.symbol symbol)
    (hmore : ∀ field ∈ more, IsField field)
    (htext : Spaced (source :: target :: (symbol ++ more)) text) : WritesRule rule (lead ++ text)

/-- The lines that say something, and what they say: a rule or nothing. -/
inductive WritesLine : Option Rule → List Char → Prop
  /-- A rule. -/
  | rule {rule : Rule} {line : List Char} (h : WritesRule rule line) : WritesLine (some rule) line
  /-- Nothing, as a blank line. -/
  | blank {line : List Char} (h : IsGap line) : WritesLine none line
  /-- Nothing, as a comment. -/
  | comment {lead text : List Char} (hlead : IsGap lead) (htext : '\n' ∉ text) :
    WritesLine none (lead ++ '#' :: text)

/-- The ends of lines. -/
inductive LineEnd : List Char → Prop
  /-- LF alone. -/
  | lf : LineEnd ['\n']
  /-- CR and LF. -/
  | crlf : LineEnd ['\x0d', '\n']

/-- The texts that say a list of rules. -/
inductive Writes : List Rule → List Char → Prop
  /-- No lines. -/
  | nil : Writes [] []
  /-- A line with its end, and the text behind it. -/
  | line {said : Option Rule} {rules : List Rule} {line ending text : List Char}
    (hline : WritesLine said line) (hending : LineEnd ending) (h : Writes rules text) :
    Writes (said.toList ++ rules) (line ++ ending ++ text)
  /-- A last line without an end. -/
  | last {said : Option Rule} {line : List Char} (hline : WritesLine said line) :
    Writes said.toList line

/-! ### Every list of rules has a text -/

/-- A character that no field can hold is the character of a byte that has a name. -/
theorem exists_byteName {b : UInt8} (h : Char.ofUInt8 b ∈ separators) :
    ∃ name, ByteName b name := by
  have hbytes : ∀ b ∈ allBytes, Char.ofUInt8 b ∈ separators →
      b ∈ [0x0A, 0x20, 0x09, 0x0B, 0x0C, 0x0D] := by
    decide +kernel
  have hb := hbytes b (mem_allBytes b) h
  simp only [List.mem_cons, List.not_mem_nil, or_false] at hb
  rcases hb with rfl | rfl | rfl | rfl | rfl | rfl
  · exact ⟨_, .lf⟩
  · exact ⟨_, .space⟩
  · exact ⟨_, .ht⟩
  · exact ⟨_, .vt⟩
  · exact ⟨_, .ff⟩
  · exact ⟨_, .cr⟩

/-- Every byte has a spelling. -/
theorem exists_writesByte (b : UInt8) : ∃ field, WritesByte b field := by
  by_cases h : Char.ofUInt8 b ∈ separators
  · obtain ⟨name, hname⟩ := exists_byteName h
    exact ⟨_, .named hname⟩
  · exact ⟨_, .literal h⟩

/-- Every symbol has a spelling. -/
theorem exists_writesSymbol (symbol : Symbol) : ∃ fields, WritesSymbol symbol fields := by
  cases symbol with
  | byte b =>
    obtain ⟨field, hfield⟩ := exists_writesByte b
    exact ⟨_, .byte hfield⟩
  | letter => exact ⟨_, .letter⟩
  | digitLike => exact ⟨_, .digitLike⟩
  | separator => exact ⟨_, .separator⟩
  | exclude b =>
    obtain ⟨field, hfield⟩ := exists_writesByte b
    exact ⟨_, .exclude hfield⟩
  | any => exact ⟨["no".toList, [Char.ofNat 0x100]], .any (by decide)⟩

/-- Fields can be set apart. -/
theorem exists_spaced {fields : List (List Char)} (hne : fields ≠ []) :
    ∃ text, Spaced fields text := by
  induction fields with
  | nil => exact absurd rfl hne
  | cons field fields ih =>
    cases fields with
    | nil => exact ⟨field ++ [], .last (by decide)⟩
    | cons next later =>
      obtain ⟨text, htext⟩ := ih (List.cons_ne_nil _ _)
      exact ⟨field ++ [' '] ++ text, .cons (by decide) (by simp) htext⟩

/-- Every rule has a line that says it. -/
theorem exists_writesRule (rule : Rule) : ∃ line, WritesRule rule line := by
  obtain ⟨symbol, hsymbol⟩ := exists_writesSymbol rule.symbol
  obtain ⟨text, htext⟩ := exists_spaced (List.cons_ne_nil
    (List.replicate 0 '0' ++ Nat.toDigits 10 rule.source.toNat)
    ((List.replicate 0 '0' ++ Nat.toDigits 10 rule.target.toNat) :: (symbol ++ [])))
  exact ⟨[] ++ text, .fields (by decide) (.plain 0) (.plain 0) hsymbol (by simp) htext⟩

/-- Every list of rules has a text that says it. -/
theorem exists_writes (rules : List Rule) : ∃ text, Writes rules text := by
  induction rules with
  | nil => exact ⟨_, .nil⟩
  | cons rule rules ih =>
    obtain ⟨line, hline⟩ := exists_writesRule rule
    obtain ⟨text, htext⟩ := ih
    exact ⟨_, .line (.rule hline) .lf htext⟩

end TableLexer.Layout
