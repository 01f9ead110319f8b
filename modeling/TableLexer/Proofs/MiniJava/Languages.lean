import TableLexer.Proofs.MiniJava.Phases
import TableLexer.Proofs.Scanner.Lexemes
import TableLexer.Proofs.Scanner.Remainder

/-!
# The languages of the small Java table

Names, numbers, strings and the other words of the small Java are languages of byte strings, and so
is the text between them. Each phase of the table has a language of its own: the bytes behind which
a word that is being read can end. A byte at the front of a phase's language leads to the phase that
has the others in its language, so by induction on the bytes the automaton ends in a category for
the bytes of that language, and for no others.
-/

namespace TableLexer.MiniJava

/-! ### The languages -/

/-- A number without a fraction: digits, at least one. -/
def IsNumber (bytes : List UInt8) : Prop := bytes ≠ [] ∧ ∀ b ∈ bytes, b ∈ digits

/-- Whether a byte may stand inside a string. -/
def IsTextByte (b : UInt8) : Prop := b ≠ 0x22 ∧ b ≠ 0x0A ∧ b ≠ 0x0D

/-- The operators: the plus sign and the equals sign, each once or twice, and the slash. -/
def operators : List (List UInt8) := [[0x2B], [0x2B, 0x2B], [0x3D], [0x3D, 0x3D], [0x2F]]

/-- The lexemes that the states of a category accept. -/
def Shape : Category → List UInt8 → Prop
  | .identifier, bytes => ∃ b rest, bytes = b :: rest ∧ ByteClass.isLetter b ∧
      ∀ c ∈ rest, ByteClass.isLetterOrDigit c
  | .integerLiteral, bytes => IsNumber bytes
  | .floatingPointLiteral, bytes => ∃ whole fraction, bytes = whole ++ 0x2E :: fraction ∧
      IsNumber whole ∧ IsNumber fraction
  | .characterLiteral, bytes => ∃ b, bytes = [0x27, b, 0x27] ∧ b ≠ 0x27
  | .stringLiteral, bytes => ∃ inside, bytes = 0x22 :: inside ++ [0x22] ∧
      ∀ b ∈ inside, IsTextByte b
  | .operator, bytes => bytes ∈ operators
  | .separator, bytes => ∃ b ∈ separators, bytes = [b]
  | .keyword, _ | .nullLiteral, _ | .booleanLiteral, _ => False

/-- The words of a category: names are told apart by the reserved words. -/
def Language : Category → List UInt8 → Prop
  | .identifier, bytes => Shape .identifier bytes ∧
      lexemeText bytes ∉ Category.keywords ∧ lexemeText bytes ∉ ["null", "true", "false"]
  | .keyword, bytes => Shape .identifier bytes ∧ lexemeText bytes ∈ Category.keywords
  | .nullLiteral, bytes => Shape .identifier bytes ∧ lexemeText bytes = "null"
  | .booleanLiteral, bytes => Shape .identifier bytes ∧
      (lexemeText bytes = "true" ∨ lexemeText bytes = "false")
  | category, bytes => Shape category bytes

/-- Text that no word is in: white space, and comments from two slashes up to the end of a line. -/
inductive Skipped : List UInt8 → Prop
  /-- There is no text. -/
  | nil : Skipped []
  /-- A byte of white space stands before the text. -/
  | blank {b : UInt8} {rest : List UInt8} (hblank : b ∈ blanks) (hrest : Skipped rest) :
      Skipped (b :: rest)
  /-- A comment stands before the text. -/
  | comment {inside rest : List UInt8} (hinside : ∀ b ∈ inside, b ≠ 0x0A)
      (hrest : Skipped rest) : Skipped (0x2F :: 0x2F :: (inside ++ 0x0A :: rest))

/-- The category that the reserved words leave a name. -/
theorem resolve_identifier (text : String) :
    Category.identifier.resolve text =
      if text ∈ Category.keywords then .keyword
      else if text = "null" then .nullLiteral
      else if text = "true" ∨ text = "false" then .booleanLiteral
      else .identifier := by
  simp only [Category.resolve, Category.isKeyword, Category.isNull, Category.isBoolean,
    List.contains_iff_mem, decide_eq_true_eq, Bool.or_eq_true]

/-- A lexeme of a state becomes a word of the category that the reserved words leave it. -/
theorem language_iff {category : Category} {bytes : List UInt8} :
    Language category bytes ↔
      ∃ accepted, Shape accepted bytes ∧ accepted.resolve (lexemeText bytes) = category := by
  have hnull : "null" ∉ Category.keywords := by decide
  have htrue : "true" ∉ Category.keywords := by decide
  have hfalse : "false" ∉ Category.keywords := by decide
  constructor
  · intro h
    cases category
    case identifier | keyword | nullLiteral | booleanLiteral =>
      obtain ⟨hshape, htext⟩ := h
      refine ⟨.identifier, hshape, ?_⟩
      rw [resolve_identifier]
      grind
    case integerLiteral => exact ⟨.integerLiteral, h, rfl⟩
    case floatingPointLiteral => exact ⟨.floatingPointLiteral, h, rfl⟩
    case characterLiteral => exact ⟨.characterLiteral, h, rfl⟩
    case stringLiteral => exact ⟨.stringLiteral, h, rfl⟩
    case operator => exact ⟨.operator, h, rfl⟩
    case separator => exact ⟨.separator, h, rfl⟩
  · rintro ⟨accepted, hshape, rfl⟩
    cases accepted
    case identifier =>
      rw [resolve_identifier]
      split_ifs with hkeyword hnull' hboolean
      · exact ⟨hshape, hkeyword⟩
      · exact ⟨hshape, hnull'⟩
      · exact ⟨hshape, hboolean⟩
      · exact ⟨hshape, hkeyword, by simp_all⟩
    case keyword | nullLiteral | booleanLiteral => exact hshape.elim
    all_goals exact hshape

/-! ### The languages of the phases -/

/-- Bytes of a kind up to a mark, and behind the mark bytes of a language. -/
def Until (kind : UInt8 → Prop) (mark : UInt8) (language : List UInt8 → Prop)
    (bytes : List UInt8) : Prop :=
  ∃ front back, bytes = front ++ mark :: back ∧ (∀ b ∈ front, kind b) ∧ language back

section Until

variable {kind : UInt8 → Prop} {mark b : UInt8} {language : List UInt8 → Prop} {rest : List UInt8}

/-- No mark is reached without bytes. -/
theorem not_until_nil : ¬Until kind mark language [] := by
  rintro ⟨front, back, hbytes, -⟩
  simp at hbytes

/-- The first byte is the mark, or it is of the kind and the mark comes later. -/
theorem until_cons :
    Until kind mark language (b :: rest) ↔
      (b = mark ∧ language rest) ∨ (kind b ∧ Until kind mark language rest) := by
  constructor
  · rintro ⟨front, back, hbytes, hfront, hback⟩
    cases front with
    | nil =>
      obtain ⟨rfl, rfl⟩ := List.cons.inj hbytes
      exact Or.inl ⟨rfl, hback⟩
    | cons c front =>
      obtain ⟨rfl, rfl⟩ := List.cons.inj hbytes
      obtain ⟨hb, hfront⟩ := List.forall_mem_cons.mp hfront
      exact Or.inr ⟨hb, front, back, rfl, hfront, hback⟩
  · rintro (⟨rfl, hrest⟩ | ⟨hb, front, back, rfl, hfront, hback⟩)
    · exact ⟨[], rest, rfl, by simp, hrest⟩
    · exact ⟨b :: front, back, rfl, List.forall_mem_cons.mpr ⟨hb, hfront⟩, hback⟩

end Until

/-- A number is a digit with nothing but digits behind it. -/
theorem isNumber_cons {b : UInt8} {rest : List UInt8} :
    IsNumber (b :: rest) ↔ b ∈ digits ∧ ∀ c ∈ rest, c ∈ digits := by
  simp [IsNumber]

/-- A number with a fraction begins with a digit, and a point follows behind further digits. -/
theorem shape_floatingPointLiteral_cons {b : UInt8} {rest : List UInt8} :
    Shape .floatingPointLiteral (b :: rest) ↔
      b ∈ digits ∧ Until (· ∈ digits) 0x2E IsNumber rest := by
  constructor
  · rintro ⟨whole, fraction, hbytes, hwhole, hfraction⟩
    cases whole with
    | nil => exact absurd rfl hwhole.1
    | cons c whole =>
      obtain ⟨rfl, rfl⟩ := List.cons.inj hbytes
      obtain ⟨hb, hwhole⟩ := isNumber_cons.mp hwhole
      exact ⟨hb, whole, fraction, rfl, hwhole, hfraction⟩
  · rintro ⟨hb, whole, fraction, rfl, hwhole, hfraction⟩
    exact ⟨b :: whole, fraction, rfl, isNumber_cons.mpr ⟨hb, hwhole⟩, hfraction⟩

namespace Phase

/-- The bytes behind which a lexeme of a category ends, if it has come to a phase before them. -/
def Rest : Phase → Category → List UInt8 → Prop
  | start, category, bytes => Shape category bytes
  | name, category, bytes => category = .identifier ∧ ∀ b ∈ bytes, ByteClass.isLetterOrDigit b
  | whole, category, bytes =>
    (category = .integerLiteral ∧ ∀ b ∈ bytes, b ∈ digits) ∨
      (category = .floatingPointLiteral ∧ Until (· ∈ digits) 0x2E IsNumber bytes)
  | point, category, bytes => category = .floatingPointLiteral ∧ IsNumber bytes
  | fraction, category, bytes => category = .floatingPointLiteral ∧ ∀ b ∈ bytes, b ∈ digits
  | text, category, bytes => category = .stringLiteral ∧ Until IsTextByte 0x22 (· = []) bytes
  | mark, category, bytes => category = .characterLiteral ∧ ∃ b, bytes = [b, 0x27] ∧ b ≠ 0x27
  | letter, category, bytes => category = .characterLiteral ∧ bytes = [0x27]
  | plus, category, bytes => category = .operator ∧ (bytes = [] ∨ bytes = [0x2B])
  | assign, category, bytes => category = .operator ∧ (bytes = [] ∨ bytes = [0x3D])
  | comment, _, _ => False
  | phase, category, bytes => phase.category? = some category ∧ bytes = []

/-- A lexeme can end at once in the phases with a category. -/
theorem rest_nil (phase : Phase) (category : Category) :
    phase.Rest category [] ↔ phase.category? = some category := by
  cases phase
  case start =>
    cases category <;> simp [Rest, Shape, IsNumber, operators, category?]
  all_goals simp [Rest, category?, IsNumber, not_until_nil, eq_comm (a := category)]

/-- The next phase of a step that asks for a property of the byte first. -/
theorem exists_step_ite {p : Prop} [Decidable p] {phase : Phase} {otherwise : Option Phase}
    {property : Phase → Prop} :
    (∃ next, (if p then some phase else otherwise) = some next ∧ property next) ↔
      (p ∧ property phase) ∨ (¬p ∧ ∃ next, otherwise = some next ∧ property next) := by
  split <;> simp [*]

/-- A byte that a word can begin with opens the phase of the word. -/
theorem step_start_of_isLetter {b : UInt8} (h : ByteClass.isLetter b) :
    start.step b = some name := by
  have hblanks : ∀ c ∈ blanks, ¬ByteClass.isLetter c := by decide +kernel
  have hblank : b ∉ blanks := fun hmem => hblanks b hmem h
  rw [step, if_neg hblank, if_pos h]

/-- A digit begins a whole number. -/
theorem step_start_of_mem_digits : ∀ b ∈ digits, start.step b = some whole := by decide +kernel

/-- A separator is read at once. -/
theorem step_start_of_mem_separators : ∀ b ∈ separators, start.step b = some separator := by
  decide +kernel

/-- The phase behind a byte at the start tells what kind of byte it is. -/
theorem step_start_cases {b : UInt8} {next : Phase} (h : start.step b = some next) :
    (next = start ∧ b ∈ blanks) ∨ (next = name ∧ ByteClass.isLetter b) ∨
      (next = whole ∧ b ∈ digits) ∨ (next = text ∧ b = 0x22) ∨ (next = mark ∧ b = 0x27) ∨
      (next = plus ∧ b = 0x2B) ∨ (next = assign ∧ b = 0x3D) ∨ (next = slash ∧ b = 0x2F) ∨
      (next = separator ∧ b ∈ separators) := by
  simp only [step, ite_eq_iff, Option.some.injEq, reduceCtorEq, and_false, or_false] at h
  rcases h with ⟨hb, rfl⟩ | ⟨-, ⟨hb, rfl⟩ | ⟨-, ⟨hb, rfl⟩ | ⟨-, ⟨hb, rfl⟩ | ⟨-, ⟨hb, rfl⟩ |
    ⟨-, ⟨hb, rfl⟩ | ⟨-, ⟨hb, rfl⟩ | ⟨-, ⟨hb, rfl⟩ | ⟨-, hb, rfl⟩⟩⟩⟩⟩⟩⟩⟩ <;>
    simp [hb]

/-- At the start, a byte at the front of a lexeme leads to the phase that has the others in its
language. -/
theorem shape_cons {category : Category} {b : UInt8} {rest : List UInt8} :
    Shape category (b :: rest) ↔
      ∃ next, start.step b = some next ∧ next ≠ start ∧ next.Rest category rest := by
  constructor
  · -- a case for each form of a lexeme, which tells the phase behind its first byte
    intro h
    cases category
    case identifier =>
      obtain ⟨c, others, hbytes, hletter, hothers⟩ := h
      obtain ⟨rfl, rfl⟩ := List.cons.inj hbytes
      exact ⟨name, step_start_of_isLetter hletter, by decide, rfl, hothers⟩
    case integerLiteral =>
      obtain ⟨hdigit, hdigits⟩ := isNumber_cons.mp h
      exact ⟨whole, step_start_of_mem_digits b hdigit, by decide, Or.inl ⟨rfl, hdigits⟩⟩
    case floatingPointLiteral =>
      obtain ⟨hdigit, huntil⟩ := shape_floatingPointLiteral_cons.mp h
      exact ⟨whole, step_start_of_mem_digits b hdigit, by decide, Or.inr ⟨rfl, huntil⟩⟩
    case characterLiteral =>
      obtain ⟨c, hbytes, hc⟩ := h
      obtain ⟨rfl, rfl⟩ := List.cons.inj hbytes
      exact ⟨mark, rfl, by decide, rfl, c, rfl, hc⟩
    case stringLiteral =>
      obtain ⟨inside, hbytes, hinside⟩ := h
      obtain ⟨rfl, rfl⟩ := List.cons.inj hbytes
      exact ⟨text, rfl, by decide, rfl, inside, [], rfl, hinside, rfl⟩
    case operator =>
      simp only [Shape, operators, List.mem_cons, List.cons.injEq, List.not_mem_nil, or_false] at h
      rcases h with ⟨rfl, rfl⟩ | ⟨rfl, rfl⟩ | ⟨rfl, rfl⟩ | ⟨rfl, rfl⟩ | ⟨rfl, rfl⟩
      · exact ⟨plus, rfl, by decide, rfl, Or.inl rfl⟩
      · exact ⟨plus, rfl, by decide, rfl, Or.inr rfl⟩
      · exact ⟨assign, rfl, by decide, rfl, Or.inl rfl⟩
      · exact ⟨assign, rfl, by decide, rfl, Or.inr rfl⟩
      · exact ⟨slash, rfl, by decide, rfl, rfl⟩
    case separator =>
      obtain ⟨c, hmem, hbytes⟩ := h
      obtain ⟨rfl, rfl⟩ := List.cons.inj hbytes
      exact ⟨separator, step_start_of_mem_separators b hmem, by decide, rfl, rfl⟩
    case keyword | nullLiteral | booleanLiteral => exact h.elim
  · -- a case for each phase that follows the start
    rintro ⟨next, hstep, hnext, hrest⟩
    rcases step_start_cases hstep with ⟨rfl, -⟩ | ⟨rfl, hletter⟩ | ⟨rfl, hdigit⟩ | ⟨rfl, rfl⟩ |
      ⟨rfl, rfl⟩ | ⟨rfl, rfl⟩ | ⟨rfl, rfl⟩ | ⟨rfl, rfl⟩ | ⟨rfl, hseparator⟩
    · exact absurd rfl hnext
    · obtain ⟨rfl, hothers⟩ := hrest
      exact ⟨b, rest, rfl, hletter, hothers⟩
    · rcases hrest with ⟨rfl, hdigits⟩ | ⟨rfl, huntil⟩
      · exact isNumber_cons.mpr ⟨hdigit, hdigits⟩
      · exact shape_floatingPointLiteral_cons.mpr ⟨hdigit, huntil⟩
    · obtain ⟨rfl, inside, back, rfl, hinside, rfl⟩ := hrest
      exact ⟨inside, rfl, hinside⟩
    · obtain ⟨rfl, c, rfl, hc⟩ := hrest
      exact ⟨c, rfl, hc⟩
    · obtain ⟨rfl, rfl | rfl⟩ := hrest <;> simp [Shape, operators]
    · obtain ⟨rfl, rfl | rfl⟩ := hrest <;> simp [Shape, operators]
    · obtain ⟨hcategory, rfl⟩ := hrest
      obtain rfl := Option.some.inj hcategory
      simp [Shape, operators]
    · obtain ⟨hcategory, rfl⟩ := hrest
      obtain rfl := Option.some.inj hcategory
      exact ⟨b, hseparator, rfl⟩

/-- A byte at the front of the language of a phase leads to the phase that has the others in its
language, and not back to the start. -/
theorem rest_cons (phase : Phase) (category : Category) (b : UInt8) (rest : List UInt8) :
    phase.Rest category (b :: rest) ↔
      ∃ next, phase.step b = some next ∧ next ≠ start ∧ next.Rest category rest := by
  have hpoint : (0x2E : UInt8) ∉ digits := by decide
  cases phase
  case start => exact shape_cons
  -- both sides are made of the same facts about the byte and the rest, in another order
  all_goals
    simp [Rest, step, exists_step_ite, until_cons, isNumber_cons, category?, IsTextByte] <;> grind

/-- The bytes that lead from a phase back to the start. -/
def Back : Phase → List UInt8 → Prop
  | start, bytes => Skipped bytes
  | slash, bytes => ∃ rest, bytes = 0x2F :: rest ∧ Until (· ≠ 0x0A) 0x0A Skipped rest
  | comment, bytes => Until (· ≠ 0x0A) 0x0A Skipped bytes
  | _, _ => False

/-- Without bytes, only the start is back at the start. -/
theorem back_nil (phase : Phase) : phase.Back [] ↔ phase = start := by
  cases phase <;> simp [Back, not_until_nil, Skipped.nil]

/-- Skipped text begins with a blank byte or with the slash of a comment. -/
theorem skipped_cons {b : UInt8} {rest : List UInt8} :
    Skipped (b :: rest) ↔ (b ∈ blanks ∧ Skipped rest) ∨ (b = 0x2F ∧ slash.Back rest) := by
  constructor
  · intro h
    cases h with
    | blank hblank hrest => exact Or.inl ⟨hblank, hrest⟩
    | comment hinside hrest => exact Or.inr ⟨rfl, _, rfl, _, _, rfl, hinside, hrest⟩
  · rintro (⟨hblank, hrest⟩ | ⟨rfl, -, rfl, inside, rest, rfl, hinside, hrest⟩)
    · exact .blank hblank hrest
    · exact .comment hinside hrest

/-- A byte at the front of what leads a phase back to the start leads to the phase that the others
lead back. -/
theorem back_cons (phase : Phase) (b : UInt8) (rest : List UInt8) :
    phase.Back (b :: rest) ↔ ∃ next, phase.step b = some next ∧ next.Back rest := by
  cases phase
  case start =>
    rw [Back, skipped_cons]
    constructor
    · rintro (⟨hblank, hrest⟩ | ⟨rfl, hrest⟩)
      · exact ⟨start, if_pos hblank, hrest⟩
      · exact ⟨slash, rfl, hrest⟩
    · rintro ⟨next, hstep, hback⟩
      -- a comment leads back as well, but no byte leads from the start into one
      have hcases := step_start_cases hstep
      have hnext : next = start ∨ next = slash := by
        cases next <;> simp_all [Back]
      rcases hnext with rfl | rfl
      · exact Or.inl ⟨by simpa using hcases, hback⟩
      · exact Or.inr ⟨by simpa using hcases, hback⟩
  case comment =>
    simp only [Back, until_cons, step, exists_step_ite, Option.some.injEq, exists_eq_left']
  all_goals simp [Back, step, exists_step_ite]

end Phase

section Automaton

variable {a : Automaton} (h : automaton = .ok a)

include h

/-- The automaton ends in a category, without coming back to the start, behind the bytes of the
language of the phase. -/
theorem ending?_state (phase : Phase) {category : Category} {bytes : List UInt8} :
    a.ending? phase.state bytes = some category ↔ phase.Rest category bytes := by
  -- for all phases at once, since a byte leads to another phase
  induction bytes generalizing phase with
  | nil => rw [Automaton.ending?, category?_state h, phase.rest_nil]
  | cons b rest ih =>
    rw [Automaton.ending?, next?_state h, phase.rest_cons]
    cases phase.step b with
    | none => simp
    | some next => simp [← ih, Phase.state_eq_start_iff]

/-- The lexemes of a category are the bytes of its shape. -/
theorem isLexeme_iff {category : Category} {bytes : List UInt8} :
    a.IsLexeme bytes category ↔ Shape category bytes := by
  have hending : a.ending? State.start bytes = some category ↔ Shape category bytes :=
    ending?_state h .start
  rw [Automaton.isLexeme_iff_ending?, hending, and_iff_right_iff_imp]
  rintro hshape rfl
  have hnone : Phase.start.category? = some category :=
    (Phase.rest_nil .start category).mp hshape
  cases hnone

/-- The automaton comes back to the start behind the bytes that lead the phase there. -/
theorem walk?_state (phase : Phase) {bytes : List UInt8} :
    a.walk? phase.state bytes = some State.start ↔ phase.Back bytes := by
  induction bytes generalizing phase with
  | nil => rw [Automaton.walk?, Option.some.injEq, phase.state_eq_start_iff, phase.back_nil]
  | cons b rest ih =>
    rw [Automaton.walk?, next?_state h, phase.back_cons]
    cases phase.step b with
    | none => simp
    | some next => simp [ih]

/-- The automaton skips white space and comments, and nothing else. -/
theorem skips_iff {bytes : List UInt8} : a.Skips bytes ↔ Skipped bytes :=
  walk?_state h .start

end Automaton

/-- The rule file and the document that goes with it give an automaton whose words are languages:
every word of a source is in the language of its category, and what is in the language of a category
is scanned as one token of that category when it stands alone. The words of a source are spans with
skipped text between them, and if the scan does not fail, behind them too; and the skipped text is
white space and comments. -/
theorem words_and_skipped_text :
    Acceptance.ofDocument sidecar = .ok acceptance ∧
      ∃ a, automaton = .ok a ∧
        (∀ source,
          (∀ word ∈ (a.reading source).words, Language word.category word.bytes) ∧
          (a.scan source).tokens.map Token.category = (a.reading source).words.map Word.category ∧
          ((a.scan source).lexicon.size ≤ UInt32.size →
            (a.scan source).Spells (a.reading source).words) ∧
          ∃ spans last, a.Tiles source 0 spans last ∧
            spans.map (Span.bytes source) = (a.reading source).words.map Word.bytes ∧
            ((a.scan source).error = none → a.Skips (source.drop last))) ∧
        (∀ bytes, a.Skips bytes ↔ Skipped bytes) ∧
        ∀ category bytes, Language category bytes →
          ∃ token, (a.scan bytes).tokens = [token] ∧ token.category = category ∧
            (a.scan bytes).lexeme? token = some (lexemeText bytes) ∧
            (a.scan bytes).error = none := by
  obtain ⟨a, ha⟩ := exists_automaton
  refine ⟨ofDocument_sidecar, a, ha, ?_, fun bytes => skips_iff ha, ?_⟩
  · intro source
    refine ⟨?_, a.map_category_scan source, Automaton.spells_scan, ?_⟩
    · intro word hmem
      obtain ⟨accepted, hlexeme, hword⟩ := Automaton.exists_isLexeme_of_mem hmem
      have hcategory : accepted.resolve (lexemeText word.bytes) = word.category := by
        rw [hword]
        rfl
      exact language_iff.mpr ⟨accepted, (isLexeme_iff ha).mp hlexeme, hcategory⟩
    · obtain ⟨spans, last, htiles, hbytes, hskips⟩ :=
        a.reading_tiles_skips source (Nat.zero_le _)
      refine ⟨spans, last, htiles, hbytes, fun herror => hskips ?_⟩
      rw [Automaton.scan_eq_reading, Reading.transcript, Option.map_eq_none_iff] at herror
      exact herror
  · intro category bytes hlanguage
    obtain ⟨accepted, hshape, rfl⟩ := language_iff.mp hlanguage
    exact ((isLexeme_iff ha).mpr hshape).exists_scan_eq

/-- The bytes of a keyword. -/
def whileText : List UInt8 := [0x77, 0x68, 0x69, 0x6C, 0x65]

/-- A comment with a quote in it, and a line break behind its end. -/
def commentText : List UInt8 := [0x2F, 0x2F, 0x22, 0x0A, 0x0A]

/-- The keyword is one token, also behind the comment, and there is nothing else in either
source. -/
theorem words_and_skipped_text_while :
    Language .keyword whileText ∧ Skipped commentText ∧
      ∃ a, automaton = .ok a ∧
        (∃ token, (a.scan whileText).tokens = [token] ∧ token.category = .keyword) ∧
        (a.scan (commentText ++ whileText)).lexicon.size ≤ UInt32.size ∧
        (a.scan (commentText ++ whileText)).Spells [⟨.keyword, whileText⟩] ∧
        (a.scan (commentText ++ whileText)).error = none ∧
        ∃ spans last, a.Tiles (commentText ++ whileText) 0 spans last ∧
          spans.map (Span.bytes (commentText ++ whileText)) = [whileText] ∧
          Skipped ((commentText ++ whileText).drop last) := by
  have hlanguage : Language .keyword whileText :=
    ⟨⟨0x77, [0x68, 0x69, 0x6C, 0x65], rfl, by decide +kernel, by decide +kernel⟩,
      by decide +kernel⟩
  have hcomment : Skipped commentText :=
    .comment (List.forall_mem_singleton.mpr (by decide)) (.blank (by decide) .nil)
  obtain ⟨-, a, ha, hsources, hskipped, hwords⟩ := words_and_skipped_text
  obtain ⟨token, htokens, hcategory, -⟩ := hwords .keyword whileText hlanguage
  have hreading : (a.reading (commentText ++ whileText)).words = [⟨.keyword, whileText⟩] ∧
      (a.reading (commentText ++ whileText)).stuck = none := by
    have hlexeme : a.IsLexeme whileText .identifier := (isLexeme_iff ha).mpr hlanguage.1
    have hresolve : Category.identifier.resolve (lexemeText whileText) = .keyword := by
      rw [resolve_identifier, if_pos hlanguage.2]
    rw [Automaton.reading_append_of_skips ((hskipped _).mpr hcomment), hlexeme.reading_eq,
      Word.ofLexeme, hresolve]
    exact ⟨rfl, rfl⟩
  have hsize : (a.scan (commentText ++ whileText)).lexicon.size ≤ UInt32.size := by
    have hlength : 0 + (commentText ++ whileText).length ≤ UInt32.size := by decide
    exact Nat.le_trans (Scanner.size_transcript_le _) hlength
  have hend : (a.scan (commentText ++ whileText)).error = none := by
    rw [Automaton.scan_eq_reading, Reading.transcript, hreading.2, Option.map_none]
  obtain ⟨-, -, hspells, spans, last, htiles, hbytes, htail⟩ := hsources (commentText ++ whileText)
  rw [hreading.1] at hbytes hspells
  exact ⟨hlanguage, hcomment, a, ha, ⟨token, htokens, hcategory⟩, hsize, hspells hsize, hend,
    spans, last, htiles, hbytes, (hskipped _).mp (htail hend)⟩

end TableLexer.MiniJava
