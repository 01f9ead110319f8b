import TableLexer.MiniJava
import TableLexer.Proofs.Automaton.WellFormed
import TableLexer.Proofs.Rule.Reading
import TableLexer.Proofs.Rule.Rows

/-!
# The phases of the small Java table

Each state of the table for a small Java is a phase of reading: a name is being read, the fraction
of a number, a comment. The rule file is read as a list of rules, and what these rules make of the
row of a state is the step from its phase, byte by byte. So a walk of the automaton is a run through
the phases, and whatever the automaton does can be looked at with the phases alone.
-/

namespace TableLexer.MiniJava

/-- The bytes of white space: space, HT, LF and CR. -/
def blanks : List UInt8 := [0x20, 0x09, 0x0A, 0x0D]

/-- The decimal digits. -/
def digits : List UInt8 := [0x30, 0x31, 0x32, 0x33, 0x34, 0x35, 0x36, 0x37, 0x38, 0x39]

/-- The bytes that are separators: brackets, braces, the semicolon, the comma and the point. -/
def separators : List UInt8 := [0x28, 0x29, 0x7B, 0x7D, 0x3B, 0x2C, 0x2E]

/-- The rules for edges from one state to another, on each of some bytes. -/
def onEach (source target : State) (bytes : List UInt8) : List Rule :=
  bytes.map fun b => ⟨source, target, .byte b⟩

/-- The rules of the rule file. -/
def ruleList : List Rule :=
  onEach 0 0 blanks ++
    [⟨0, 1, .letter⟩, ⟨1, 1, .letter⟩, ⟨1, 1, .digitLike⟩] ++
    onEach 0 2 digits ++ onEach 2 2 digits ++ [⟨2, 3, .byte 0x2E⟩] ++ onEach 3 4 digits ++
    onEach 4 4 digits ++
    [⟨0, 5, .byte 0x22⟩, ⟨5, 6, .byte 0x22⟩, ⟨5, 5, .exclude 0x0A⟩, ⟨5, 5, .exclude 0x0D⟩,
      ⟨0, 7, .byte 0x27⟩, ⟨7, 8, .exclude 0x27⟩, ⟨8, 9, .byte 0x27⟩,
      ⟨0, 10, .byte 0x2B⟩, ⟨10, 11, .byte 0x2B⟩, ⟨0, 12, .byte 0x3D⟩, ⟨12, 13, .byte 0x3D⟩,
      ⟨0, 14, .byte 0x2F⟩, ⟨14, 15, .byte 0x2F⟩, ⟨15, 15, .exclude 0x0A⟩, ⟨15, 0, .byte 0x0A⟩] ++
    onEach 0 16 separators

/-- What is being read. -/
inductive Phase where
  /-- Nothing yet, or skipped text that has come to its end. -/
  | start
  /-- A name. -/
  | name
  /-- The digits of a number, up to a point. -/
  | whole
  /-- The point of a number. -/
  | point
  /-- The digits of a number behind the point. -/
  | fraction
  /-- The inside of a string. -/
  | text
  /-- The closing mark of a string. -/
  | textEnd
  /-- The opening mark of a character. -/
  | mark
  /-- The byte of a character. -/
  | letter
  /-- The closing mark of a character. -/
  | letterEnd
  /-- A plus sign. -/
  | plus
  /-- A second plus sign. -/
  | increment
  /-- An equals sign. -/
  | assign
  /-- A second equals sign. -/
  | equality
  /-- A slash. -/
  | slash
  /-- A comment, from the second slash on. -/
  | comment
  /-- A separator. -/
  | separator
  deriving DecidableEq

namespace Phase

/-- The state of a phase. -/
def state : Phase → State
  | start => 0
  | name => 1
  | whole => 2
  | point => 3
  | fraction => 4
  | text => 5
  | textEnd => 6
  | mark => 7
  | letter => 8
  | letterEnd => 9
  | plus => 10
  | increment => 11
  | assign => 12
  | equality => 13
  | slash => 14
  | comment => 15
  | separator => 16

/-- The rules that leave the state of a phase. -/
def rules : Phase → List Rule
  | start =>
    onEach 0 0 blanks ++ [⟨0, 1, .letter⟩] ++ onEach 0 2 digits ++
      [⟨0, 5, .byte 0x22⟩, ⟨0, 7, .byte 0x27⟩, ⟨0, 10, .byte 0x2B⟩, ⟨0, 12, .byte 0x3D⟩,
        ⟨0, 14, .byte 0x2F⟩] ++
      onEach 0 16 separators
  | name => [⟨1, 1, .letter⟩, ⟨1, 1, .digitLike⟩]
  | whole => onEach 2 2 digits ++ [⟨2, 3, .byte 0x2E⟩]
  | point => onEach 3 4 digits
  | fraction => onEach 4 4 digits
  | text => [⟨5, 6, .byte 0x22⟩, ⟨5, 5, .exclude 0x0A⟩, ⟨5, 5, .exclude 0x0D⟩]
  | mark => [⟨7, 8, .exclude 0x27⟩]
  | letter => [⟨8, 9, .byte 0x27⟩]
  | plus => [⟨10, 11, .byte 0x2B⟩]
  | assign => [⟨12, 13, .byte 0x3D⟩]
  | slash => [⟨14, 15, .byte 0x2F⟩]
  | comment => [⟨15, 15, .exclude 0x0A⟩, ⟨15, 0, .byte 0x0A⟩]
  | textEnd | letterEnd | increment | equality | separator => []

/-- The phase behind a byte, if there is one. -/
def step (phase : Phase) (b : UInt8) : Option Phase :=
  match phase with
  | start =>
    if b ∈ blanks then some start
    else if ByteClass.isLetter b then some name
    else if b ∈ digits then some whole
    else if b = 0x22 then some text
    else if b = 0x27 then some mark
    else if b = 0x2B then some plus
    else if b = 0x3D then some assign
    else if b = 0x2F then some slash
    else if b ∈ separators then some separator
    else none
  | name => if ByteClass.isLetterOrDigit b then some name else none
  | whole => if b ∈ digits then some whole else if b = 0x2E then some point else none
  | point => if b ∈ digits then some fraction else none
  | fraction => if b ∈ digits then some fraction else none
  | text => if b = 0x22 then some textEnd else if b = 0x0A ∨ b = 0x0D then none else some text
  | mark => if b = 0x27 then none else some letter
  | letter => if b = 0x27 then some letterEnd else none
  | plus => if b = 0x2B then some increment else none
  | assign => if b = 0x3D then some equality else none
  | slash => if b = 0x2F then some comment else none
  | comment => if b = 0x0A then some start else some comment
  | textEnd | letterEnd | increment | equality | separator => none

/-- The category of what has been read, if it can end there. -/
def category? : Phase → Option Category
  | name => some .identifier
  | whole => some .integerLiteral
  | fraction => some .floatingPointLiteral
  | letterEnd => some .characterLiteral
  | textEnd => some .stringLiteral
  | plus | increment | assign | equality | slash => some .operator
  | separator => some .separator
  | start | point | text | mark | letter | comment => none

/-- Only the first phase is in the start state. -/
theorem state_eq_start_iff (phase : Phase) : phase.state = State.start ↔ phase = start := by
  cases phase <;> decide

/-- Rules for each of some bytes give edges on these bytes, where there are none. -/
theorem next?_applyAll_onEach {source target : State} (htarget : target ≠ State.noEdge)
    (bytes : List UInt8) (row : Row) (b : UInt8) :
    (Rule.applyAll (onEach source target bytes) row).next? b =
      (row.next? b <|> if b ∈ bytes then some target else none) := by
  induction bytes generalizing row with
  | nil => cases h : row.next? b <;> simp [onEach, Rule.applyAll_nil, h]
  | cons c bytes ih =>
    rw [onEach, List.map_cons, Rule.applyAll_cons, ← onEach, ih, Rule.next?_applyTo htarget]
    cases row.next? b <;> by_cases hb : b = c <;> simp [Rule.retracted?, Symbol.contains, hb]

/-- The rules with the state of a phase as their source are those of the phase. -/
theorem filter_ruleList (phase : Phase) :
    ruleList.filter (fun rule => rule.source == phase.state) = phase.rules := by
  cases phase <;> decide +kernel

/-- In the row that the rules of a phase make, the edge on a byte leads to the state of the next
phase. -/
theorem next?_applyAll_rules (phase : Phase) (b : UInt8) :
    (Rule.applyAll phase.rules Row.empty).next? b = (phase.step b).map state := by
  cases phase <;>
    simp (disch := decide) [rules, step, next?_applyAll_onEach, Rule.applyAll_nil,
      Rule.applyAll_cons, Rule.applyAll_append, Rule.next?_applyTo, Rule.retracted?,
      Symbol.contains, ByteClass.isDigitLike, ByteClass.isLetterOrDigit] <;>
    grind [state]

end Phase

/-! ### The automaton of the rule file -/

/-- The lines of a text in which every line has an end. -/
theorem lines_flatMap {lines : List (List Char)} (hlines : ∀ line ∈ lines, '\n' ∉ line) :
    RuleFile.lines (lines.flatMap fun line => line ++ ['\n']) = lines := by
  induction lines with
  | nil => rfl
  | cons line lines ih =>
    obtain ⟨hline, hlater⟩ := List.forall_mem_cons.mp hlines
    rw [List.flatMap_cons, List.append_assoc, List.singleton_append, Layout.lines_append hline,
      ih hlater]

/-- The rule file is read as the list of rules. -/
theorem read_rules : (RuleFile.read rules).rules = .ok ruleList := by
  -- one evaluation for both, since it is spelling the lines out that takes time
  have hlines : (∀ line ∈ lines.map String.toList, '\n' ∉ line) ∧
      (RuleFile.readLines 1 (lines.map String.toList)).rules.toOption = some ruleList := by
    decide +kernel
  obtain ⟨hends, hread⟩ := hlines
  have hcut : RuleFile.lines rules.toList = lines.map String.toList := by
    have htext : rules.toList = (lines.map String.toList).flatMap fun line => line ++ ['\n'] := by
      simp [rules, String.toList_join, List.flatMap_map]
    rw [htext, lines_flatMap hends]
  rw [RuleFile.read, hcut]
  cases hfile : (RuleFile.readLines 1 (lines.map String.toList)).rules with
  | error e => simp [hfile, Except.toOption] at hread
  | ok found =>
    rw [hfile] at hread
    rw [Option.some.inj hread]

/-- The accepting states of the rule file are those of the document that goes with it. -/
theorem ofDocument_sidecar : Acceptance.ofDocument sidecar = .ok acceptance := by
  have hread : (Json.read? sidecar).bind Acceptance.ofJson? = some acceptance := by decide +kernel
  rw [Acceptance.ofDocument, hread]

/-- No state is accepting in two ways, so there is an automaton. -/
theorem exists_automaton : ∃ a, automaton = .ok a := by
  have hbound : (ruleList.foldl Draft.apply Draft.empty).bound = 17 := by decide +kernel
  have hacceptance : acceptance.bound = 17 := by decide
  have hdisjoint : (acceptance.categoryTable 17).toOption.isSome := by decide +kernel
  cases htable : acceptance.categoryTable 17 with
  | error e => simp [htable, Except.toOption] at hdisjoint
  | ok categories =>
    have hcategories : acceptance.categoryTable
        (max (ruleList.foldl Draft.apply Draft.empty).bound acceptance.bound) = .ok categories := by
      rw [hbound, hacceptance]
      exact htable
    obtain ⟨a, ha⟩ := Automaton.exists_ofRules hcategories
    exact ⟨a, Automaton.ofText_eq_ok_iff.mpr ⟨ruleList, read_rules, ha⟩⟩

section Automaton

variable {a : Automaton} (h : automaton = .ok a)

include h

/-- The bundled rules build the bundled automaton. -/
theorem ofRules_ruleList : Automaton.ofRules ruleList acceptance = .ok a := by
  obtain ⟨found, hread, hbuild⟩ := Automaton.ofText_eq_ok_iff.mp h
  rw [read_rules] at hread
  rwa [← Except.ok.inj hread] at hbuild

/-- The edges of the state of a phase are the steps of the phase. -/
theorem next?_state (phase : Phase) (b : UInt8) :
    a.next? phase.state b = (phase.step b).map Phase.state := by
  rw [Automaton.next?_of_ofRules (ofRules_ruleList h), Phase.filter_ruleList,
    phase.next?_applyAll_rules]

/-- A state of the bundled automaton has the category that lists it. -/
theorem category?_eq_some_iff {state : State} {category : Category} :
    a.category? state = some category ↔ state ∈ acceptance.states category := by
  rw [Automaton.category?_eq_some_iff, Automaton.acceptance_of_ofRules (ofRules_ruleList h)]

/-- The state of a phase has the category of what can end there. -/
theorem category?_state (phase : Phase) : a.category? phase.state = phase.category? := by
  ext category
  rw [category?_eq_some_iff h]
  cases phase <;> cases category <;> decide

/-- Only states of phases accept. -/
theorem exists_phase_of_accepts {state : State} (haccepts : a.accepts state) :
    ∃ phase : Phase, state = phase.state := by
  obtain ⟨category, hcategory⟩ := Option.isSome_iff_exists.mp haccepts
  rw [category?_eq_some_iff h] at hcategory
  cases category <;>
    simp only [acceptance, Acceptance.states, List.mem_cons, List.not_mem_nil, or_false]
      at hcategory
  case identifier => exact ⟨.name, hcategory⟩
  case integerLiteral => exact ⟨.whole, hcategory⟩
  case floatingPointLiteral => exact ⟨.fraction, hcategory⟩
  case characterLiteral => exact ⟨.letterEnd, hcategory⟩
  case stringLiteral => exact ⟨.textEnd, hcategory⟩
  case operator =>
    rcases hcategory with hcategory | hcategory | hcategory | hcategory | hcategory
    · exact ⟨.plus, hcategory⟩
    · exact ⟨.increment, hcategory⟩
    · exact ⟨.assign, hcategory⟩
    · exact ⟨.equality, hcategory⟩
    · exact ⟨.slash, hcategory⟩
  case separator => exact ⟨.separator, hcategory⟩

end Automaton

end TableLexer.MiniJava
