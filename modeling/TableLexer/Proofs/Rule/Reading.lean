import TableLexer.Proofs.Rule.Grammar

/-!
# Rule files read back

A text in any layout is read back as the list of rules that it says. A line of a layout falls into
fields, of which the first two are numbers of states and the third is a symbol, so by the grammar it
says its rule; and a text is taken apart into lines in the order of the reader.
-/

namespace TableLexer.Layout

open LineGrammar

/-! ### Fields -/

/-- A gap in front of a text adds no fields. -/
theorem fields_gap_append {gap : List Char} (h : IsGap gap) (text : List Char) :
    RuleLine.fields (gap ++ text) = RuleLine.fields text :=
  fields_separators_append (fun c hc => List.mem_cons_of_mem _ (h c hc)) text

/-- A gap has no fields. -/
theorem fields_gap {gap : List Char} (h : IsGap gap) : RuleLine.fields gap = [] := by
  have hfields := fields_gap_append h []
  rwa [List.append_nil] at hfields

/-- A field is the first one of a text that it opens, when a gap or the end follows. -/
theorem fields_field_append {field gap : List Char} (hfield : IsField field) (hgap : IsGap gap)
    {text : List Char} (hbound : gap ≠ [] ∨ text = []) :
    RuleLine.fields (field ++ gap ++ text) = field :: RuleLine.fields text := by
  have hend : ∀ c ∈ (gap ++ text).head?, c ∈ separators := by
    intro c hc
    cases gap with
    | nil => simp [hbound.resolve_left (fun hne => hne rfl)] at hc
    | cons d gap =>
      obtain rfl := Option.some.inj hc
      exact List.mem_cons_of_mem _ (hgap d List.mem_cons_self)
  rw [List.append_assoc, fields_append hfield hend, fields_gap_append hgap]

/-- Fields that are set apart are read as they are. -/
theorem Spaced.fields_eq {fields : List (List Char)} {text : List Char} (h : Spaced fields text)
    (hfields : ∀ field ∈ fields, IsField field) : RuleLine.fields text = fields := by
  induction h with
  | @last field gap hgap =>
    have hread := fields_field_append (hfields field List.mem_cons_self) hgap (.inr rfl)
    rwa [List.append_nil] at hread
  | cons hgap hne _ ih =>
    have hlater := ih fun field hfield => hfields field (List.mem_cons_of_mem _ hfield)
    rw [fields_field_append (hfields _ List.mem_cons_self) hgap (.inl hne), hlater]

/-! ### Numbers of states -/

/-- The digits of a number stay digits behind zeros. -/
theorem isDigit_of_mem_padded {zeros n : Nat} {c : Char}
    (h : c ∈ List.replicate zeros '0' ++ Nat.toDigits 10 n) : c.isDigit := by
  rcases List.mem_append.mp h with hzero | hdigit
  · rw [(List.mem_replicate.mp hzero).2]
    rfl
  · exact Nat.isDigit_of_mem_toDigits (by decide) (by decide) hdigit

/-- Zeros in front of a number do not change its value. -/
theorem ofDigitChars_padded (zeros n : Nat) :
    Nat.ofDigitChars 10 (List.replicate zeros '0' ++ Nat.toDigits 10 n) 0 = n := by
  rw [Nat.ofDigitChars_append, Nat.ofDigitChars_replicate_zero, Nat.mul_zero,
    Nat.ofDigitChars_ten_toDigits]

/-- A state has a number. -/
theorem isNumber_padded {state : State} (hstate : state < State.noEdge) (zeros : Nat) :
    IsNumber state (List.replicate zeros '0' ++ Nat.toDigits 10 state.toNat) where
  ne_nil := by simp
  isDigit := fun _ hc => isDigit_of_mem_padded hc
  value_eq := ofDigitChars_padded zeros _
  le := state_lt_noEdge_iff.mp hstate

/-- A spelling of the number of a state is the number of the state. -/
theorem WritesState.namesState {state : State} {field : List Char} (h : WritesState state field)
    (hstate : state < State.noEdge) : NamesState state field := by
  cases h with
  | plain zeros => exact .plain (isNumber_padded hstate zeros)
  | signed zeros => exact .signed (isNumber_padded hstate zeros)

/-- A spelling of the number of a state opens with a plus sign or a digit, and the rest of it are
digits. -/
theorem WritesState.exists_cons {state : State} {field : List Char} (h : WritesState state field) :
    ∃ first digits, field = first :: digits ∧ (first = '+' ∨ first.isDigit) ∧
      ∀ c ∈ digits, c.isDigit := by
  cases h with
  | plain zeros =>
    have hdigits : ∀ c ∈ List.replicate zeros '0' ++ Nat.toDigits 10 state.toNat, c.isDigit :=
      fun c hc => isDigit_of_mem_padded hc
    cases hfield : List.replicate zeros '0' ++ Nat.toDigits 10 state.toNat with
    | nil => simp at hfield
    | cons first digits =>
      rw [hfield] at hdigits
      exact ⟨first, digits, rfl, .inr (hdigits first List.mem_cons_self),
        fun c hc => hdigits c (List.mem_cons_of_mem _ hc)⟩
  | signed zeros => exact ⟨'+', _, rfl, .inl rfl, fun c hc => isDigit_of_mem_padded hc⟩

/-- The separators are the space and controls, so no character of a higher code is one. -/
theorem not_mem_separators {c : Char} (h : 0x20 < c.toNat) : c ∉ separators := by
  intro hc
  simp only [separators, gapChars, List.mem_cons, List.not_mem_nil, or_false] at hc
  rcases hc with rfl | rfl | rfl | rfl | rfl | rfl <;> exact absurd h (by decide)

/-- No digit is a separator. -/
theorem not_mem_separators_of_isDigit {c : Char} (h : c.isDigit) : c ∉ separators := by
  have hlow : '0'.toNat ≤ c.toNat := (Char.isDigit_iff_toNat.mp h).1
  exact not_mem_separators (Nat.lt_of_lt_of_le (by decide) hlow)

/-- The spelling of a state can stand as a field. -/
theorem WritesState.isField {state : State} {field : List Char} (h : WritesState state field) :
    IsField field := by
  obtain ⟨first, digits, rfl, hfirst, hdigits⟩ := h.exists_cons
  refine ⟨List.cons_ne_nil _ _, fun c hc => ?_⟩
  rcases List.mem_cons.mp hc with rfl | hlater
  · rcases hfirst with rfl | hdigit
    · decide
    · exact not_mem_separators_of_isDigit hdigit
  · exact not_mem_separators_of_isDigit (hdigits c hlater)

/-! ### Symbols -/

/-- The name of a byte can stand as a field. -/
theorem ByteName.isField {b : UInt8} {name : String} (h : ByteName b name) :
    IsField name.toList := by
  cases h <;> decide

/-- The spelling of a byte can stand as a field. -/
theorem WritesByte.isField {b : UInt8} {field : List Char} (h : WritesByte b field) :
    IsField field := by
  cases h with
  | literal hfield => exact ⟨List.cons_ne_nil _ _, by simpa using hfield⟩
  | named hname => exact hname.isField

/-- A spelling of a byte stands for the byte. -/
theorem WritesByte.namesByte {b : UInt8} {field : List Char} (h : WritesByte b field) :
    NamesByte b field := by
  cases h with
  | literal _ => exact .char rfl
  | named hname => exact .name hname

/-- A spelling of a symbol, in front of further fields, says the symbol. -/
theorem WritesSymbol.exists_symbolSays {symbol : Symbol} {fields : List (List Char)}
    (h : WritesSymbol symbol fields) (more : List (List Char)) :
    ∃ field later, fields ++ more = field :: later ∧ SymbolSays field later (.ok (.ok symbol)) := by
  cases h with
  | byte hbyte => exact ⟨_, more, rfl, .byte hbyte.namesByte⟩
  | letter => exact ⟨_, more, rfl, .letter⟩
  | digitLike => exact ⟨_, more, rfl, .digitLike⟩
  | separator => exact ⟨_, more, rfl, .separator⟩
  | @exclude b field hbyte => exact ⟨_, field :: more, rfl, .exclude hbyte.namesByte⟩
  | @any c hc => exact ⟨_, [c] :: more, rfl, .any hc⟩

/-- A character that is no byte is a field on its own. -/
theorem isField_singleton {c : Char} (hc : 0xFF < c.toNat) : IsField [c] := by
  have hsolid : c ∉ separators := not_mem_separators (by omega)
  exact ⟨List.cons_ne_nil _ _, List.forall_mem_singleton.mpr hsolid⟩

/-- The fields that spell a symbol can stand as fields. -/
theorem WritesSymbol.isField {symbol : Symbol} {fields : List (List Char)}
    (h : WritesSymbol symbol fields) : ∀ field ∈ fields, IsField field := by
  cases h with
  | byte hbyte => exact List.forall_mem_singleton.mpr hbyte.isField
  | letter => exact List.forall_mem_singleton.mpr (by decide)
  | digitLike => exact List.forall_mem_singleton.mpr (by decide)
  | separator => exact List.forall_mem_singleton.mpr (by decide)
  | exclude hbyte =>
    exact List.forall_mem_cons.mpr ⟨by decide, List.forall_mem_singleton.mpr hbyte.isField⟩
  | any hc =>
    exact List.forall_mem_cons.mpr ⟨by decide, List.forall_mem_singleton.mpr (isField_singleton hc)⟩

/-! ### Lines -/

/-- The first field of a text that opens with a character of a field opens with that character. -/
theorem fields_cons {c : Char} (hc : c ∉ separators) (text : List Char) :
    ∃ rest later, RuleLine.fields (c :: text) = (c :: rest) :: later := by
  obtain ⟨fields, hfields⟩ := exists_fallsInto text
  obtain ⟨rest, later, hcons⟩ := hfields.exists_cons hc
  exact ⟨rest, later, hcons.fields_eq⟩

/-- All fields of a line that says a rule are fields. -/
theorem isField_of_rule {rule : Rule} {source target : List Char} {symbol more : List (List Char)}
    (hsource : WritesState rule.source source) (htarget : WritesState rule.target target)
    (hsymbol : WritesSymbol rule.symbol symbol) (hmore : ∀ field ∈ more, IsField field) :
    ∀ field ∈ source :: target :: (symbol ++ more), IsField field := by
  simp only [List.mem_cons, List.mem_append]
  rintro field (rfl | rfl | hfield | hfield)
  · exact hsource.isField
  · exact htarget.isField
  · exact hsymbol.isField field hfield
  · exact hmore field hfield

/-- A line that says a rule is read as the rule. -/
theorem WritesRule.read_eq {rule : Rule} {line : List Char} (h : WritesRule rule line)
    (hrule : BetweenStates rule) : RuleLine.read line = .ok (.rule rule) := by
  obtain ⟨hlead, hs, ht, hsymbol, hmore, htext⟩ := h
  have hfields := htext.fields_eq (isField_of_rule hs ht hsymbol hmore)
  obtain ⟨field, later, hmatch, hthird⟩ := hsymbol.exists_symbolSays _
  rw [RuleLine.read, fields_gap_append hlead, hfields, hmatch]
  exact says_iff.mp
    (.rule (hs.namesState hrule.source_lt) (ht.namesState hrule.target_lt) hthird)

/-- A line that says nothing is read as blank. -/
theorem read_eq_blank {line : List Char} (h : WritesLine none line) :
    RuleLine.read line = .ok .blank := by
  cases h with
  | blank hgap =>
    rw [RuleLine.read, fields_gap hgap]
    rfl
  | @comment lead text hlead _ =>
    obtain ⟨rest, later, hfields⟩ := fields_cons (show '#' ∉ separators by decide) text
    rw [RuleLine.read, fields_gap_append hlead, hfields]
    rfl

/-- A gap holds no LF. -/
theorem IsGap.not_mem {gap : List Char} (h : IsGap gap) : '\n' ∉ gap := fun hmem =>
  absurd (h _ hmem) (by decide)

/-- A field holds no LF. -/
theorem IsField.not_mem {field : List Char} (h : IsField field) : '\n' ∉ field := fun hmem =>
  h.unbroken _ hmem List.mem_cons_self

/-- Fields and the gaps between them hold no LF. -/
theorem Spaced.not_mem {fields : List (List Char)} {text : List Char} (h : Spaced fields text)
    (hfields : ∀ field ∈ fields, IsField field) : '\n' ∉ text := by
  induction h with
  | @last field gap hgap =>
    have hfield := hfields field List.mem_cons_self
    exact List.not_mem_append hfield.not_mem hgap.not_mem
  | @cons field gap text fields hgap _ _ ih =>
    have hfield := hfields field List.mem_cons_self
    have hlater := ih fun field hfield => hfields field (List.mem_cons_of_mem _ hfield)
    exact List.not_mem_append (List.not_mem_append hfield.not_mem hgap.not_mem) hlater

/-- What says something on a line is a single line. -/
theorem WritesLine.not_mem {said : Option Rule} {line : List Char} (h : WritesLine said line) :
    '\n' ∉ line := by
  cases h with
  | rule hrule =>
    obtain ⟨hlead, hs, ht, hsymbol, hmore, htext⟩ := hrule
    exact List.not_mem_append hlead.not_mem (htext.not_mem (isField_of_rule hs ht hsymbol hmore))
  | blank hgap => exact hgap.not_mem
  | comment hlead htext =>
    exact List.not_mem_append hlead.not_mem (List.not_mem_cons_of_ne_of_not_mem (by decide) htext)

/-- Two gaps in a row are one gap. -/
theorem IsGap.append {gap more : List Char} (h : IsGap gap) (hmore : IsGap more) :
    IsGap (gap ++ more) := fun c hc => (List.mem_append.mp hc).elim (h c) (hmore c)

/-- A further gap may follow the last field. -/
theorem Spaced.append_gap {fields : List (List Char)} {text gap : List Char}
    (h : Spaced fields text) (hgap : IsGap gap) : Spaced fields (text ++ gap) := by
  induction h with
  | last hbehind =>
    rw [List.append_assoc]
    exact .last (hbehind.append hgap)
  | cons hbetween hne _ ih =>
    rw [List.append_assoc]
    exact .cons hbetween hne ih

/-- A line says the same with a gap behind it. -/
theorem WritesLine.append_gap {said : Option Rule} {line gap : List Char}
    (h : WritesLine said line) (hgap : IsGap gap) : WritesLine said (line ++ gap) := by
  cases h with
  | rule hrule =>
    obtain ⟨hlead, hs, ht, hsymbol, hmore, htext⟩ := hrule
    rw [List.append_assoc]
    exact .rule (.fields hlead hs ht hsymbol hmore (htext.append_gap hgap))
  | blank hline => exact .blank (hline.append hgap)
  | comment hlead htext =>
    rw [List.append_assoc, List.cons_append]
    exact .comment hlead (List.not_mem_append htext hgap.not_mem)

/-! ### Texts -/

/-- A text without LF is one line, unless it is empty. -/
theorem lines_of_not_mem {line : List Char} (h : '\n' ∉ line) :
    RuleFile.lines line = if line = [] then [] else [line] := by
  rw [RuleFile.lines, List.splitOn_eq_singleton h]
  cases line <;> rfl

/-- The first LF of a text ends its first line. -/
theorem lines_append {line : List Char} (h : '\n' ∉ line) (text : List Char) :
    RuleFile.lines (line ++ '\n' :: text) = line :: RuleFile.lines text := by
  have hne : (text.splitOn '\n').reverse ≠ [] := by simp
  obtain ⟨last, before, hsplit⟩ := List.exists_cons_of_ne_nil hne
  rw [RuleFile.lines, RuleFile.lines, List.splitOn_append_cons_self_of_not_mem h,
    List.reverse_cons, hsplit]
  cases last <;> simp

/-- A line in front of others puts what it says in front of what they say. -/
theorem readLines_cons {said : Option Rule} {line : List Char} (h : WritesLine said line)
    (hsaid : ∀ rule ∈ said, BetweenStates rule) {number : Nat} {later : List (List Char)}
    {rules : List Rule}
    (hlater : RuleFile.readLines (number + 1) later = ⟨[], .ok rules⟩) :
    RuleFile.readLines number (line :: later) = ⟨[], .ok (said.toList ++ rules)⟩ := by
  cases said with
  | none =>
    rw [RuleFile.readLines, read_eq_blank h]
    exact hlater
  | some rule =>
    have hrule := hsaid rule rfl
    cases h with
    | rule hline =>
      rw [RuleFile.readLines, hline.read_eq hrule, hlater]
      rfl

/-- The end of a line is a gap and an LF. -/
theorem LineEnd.exists_gap {ending : List Char} (h : LineEnd ending) :
    ∃ gap, IsGap gap ∧ ending = gap ++ ['\n'] := by
  cases h with
  | lf => exact ⟨[], by decide, rfl⟩
  | crlf => exact ⟨['\x0d'], by decide, rfl⟩

/-- The lines of a text are read as what the text says, whichever number the first one has. -/
theorem readLines_of_writes {rules : List Rule} {text : List Char} (h : Writes rules text)
    (hrules : ∀ rule ∈ rules, BetweenStates rule) (number : Nat) :
    RuleFile.readLines number (RuleFile.lines text) = ⟨[], .ok rules⟩ := by
  induction h generalizing number with
  | nil => rfl
  | @line said rules line ending text hline hending _ ih =>
    have hsaid : ∀ rule ∈ said, BetweenStates rule := fun rule hrule =>
      hrules rule (List.mem_append_left _ (Option.mem_toList.mpr hrule))
    have hlater := ih (fun rule hrule => hrules rule (List.mem_append_right _ hrule)) (number + 1)
    -- a CR in front of the LF is a gap behind what the line says
    obtain ⟨gap, hgap, rfl⟩ := hending.exists_gap
    have hwhole := hline.append_gap hgap
    have htext : line ++ (gap ++ ['\n']) ++ text = line ++ gap ++ '\n' :: text := by simp
    rw [htext, lines_append hwhole.not_mem]
    exact readLines_cons hwhole hsaid hlater
  | @last said line hline =>
    have hsaid : ∀ rule ∈ said, BetweenStates rule := fun rule hrule =>
      hrules rule (Option.mem_toList.mpr hrule)
    have hread : RuleFile.readLines number [line] = ⟨[], .ok (said.toList ++ [])⟩ :=
      readLines_cons hline hsaid rfl
    rw [List.append_nil] at hread
    rw [lines_of_not_mem hline.not_mem]
    split
    · next hempty =>
      -- no line at all is read as one blank line is
      rw [hempty] at hread
      exact hread
    · exact hread

/-- Every list of rules between states has a text, and each of its texts, in any layout, is read
back as that list, with no line passed over. -/
theorem read_of_writes {rules : List Rule} (hrules : ∀ rule ∈ rules, BetweenStates rule) :
    (∃ text : String, Writes rules text.toList) ∧
      ∀ text : String, Writes rules text.toList →
        (RuleFile.read text).rules = .ok rules ∧ (RuleFile.read text).warnings = [] := by
  constructor
  · obtain ⟨text, htext⟩ := exists_writes rules
    exact ⟨String.ofList text, by rwa [String.toList_ofList]⟩
  · intro text htext
    have hread := readLines_of_writes htext hrules 1
    rw [RuleFile.read, hread]
    exact ⟨rfl, rfl⟩

/-- Three rules: on a number sign, on all bytes but the line feed, and on all bytes. -/
def quirkyRules : List Rule :=
  [⟨0, 1, .byte 0x23⟩, ⟨1, 4294967294, .exclude 0x0A⟩, ⟨10, 2, .any⟩]

/-- A text for them with a comment, a blank line, both kinds of line ends, a plus sign, leading
zeros, a number sign as a symbol, a name and a field too many. -/
def quirkyText : String := "#\x0d\n+00 1 #\x0d\n \t\n\t1 4294967294 no LF #\n010 2 no €"

/-- The text for the three rules is one of the texts that say them. -/
theorem writes_quirkyText : Writes quirkyRules quirkyText.toList := by
  have hnone : IsGap [] := by decide
  have hspace : IsGap [' '] := by decide
  have hne : [' '] ≠ [] := by decide
  have hcomment : WritesLine none ([] ++ '#' :: []) := .comment hnone (by decide)
  have hsign : WritesRule ⟨0, 1, .byte 0x23⟩
      ([] ++ ("+00".toList ++ [' '] ++ (['1'] ++ [' '] ++ (['#'] ++ [])))) := by
    refine .fields hnone (.signed 1) (.plain 0) (.byte (.literal (by decide)))
      (List.forall_mem_nil _) ?_
    exact .cons hspace hne (.cons hspace hne (.last hnone))
  have hblank : WritesLine none [' ', '\x09'] := .blank (by decide)
  have hfeed : WritesRule ⟨1, 4294967294, .exclude 0x0A⟩
      (['\x09'] ++ (['1'] ++ [' '] ++ ("4294967294".toList ++ [' '] ++ ("no".toList ++ [' '] ++
        ("LF".toList ++ [' '] ++ (['#'] ++ [])))))) := by
    have hmore : ∀ field ∈ [['#']], IsField field := List.forall_mem_singleton.mpr (by decide)
    refine .fields (by decide) (.plain 0) (.plain 0) (.exclude (.named .lf)) hmore ?_
    exact .cons hspace hne (.cons hspace hne (.cons hspace hne (.cons hspace hne (.last hnone))))
  have hall : WritesRule ⟨10, 2, .any⟩
      ([] ++ ("010".toList ++ [' '] ++ (['2'] ++ [' '] ++ ("no".toList ++ [' '] ++
        (['€'] ++ []))))) := by
    have hoff : 0xFF < '€'.toNat := by decide
    refine .fields hnone (.plain 1) (.plain 0) (.any hoff) (List.forall_mem_nil _) ?_
    exact .cons hspace hne (.cons hspace hne (.cons hspace hne (.last hnone)))
  exact .line hcomment .crlf (.line (.rule hsign) .crlf (.line hblank .lf
    (.line (.rule hfeed) .lf (.last (.rule hall)))))

/-- The text for the three rules is read as these rules, without a warning. -/
theorem read_of_writes_quirkyText : (∀ rule ∈ quirkyRules, BetweenStates rule) ∧
    Writes quirkyRules quirkyText.toList ∧ (RuleFile.read quirkyText).rules = .ok quirkyRules ∧
    (RuleFile.read quirkyText).warnings = [] := by
  have hrules : ∀ rule ∈ quirkyRules, BetweenStates rule := by
    simp only [quirkyRules, List.forall_mem_cons, List.not_mem_nil, false_implies, implies_true,
      and_true]
    exact ⟨⟨by decide, by decide⟩, ⟨by decide, by decide⟩, ⟨by decide, by decide⟩⟩
  exact ⟨hrules, writes_quirkyText, (read_of_writes hrules).2 quirkyText writes_quirkyText⟩

end TableLexer.Layout
