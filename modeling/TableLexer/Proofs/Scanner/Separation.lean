import TableLexer.Proofs.MiniJava.Phases
import TableLexer.Proofs.Scanner.Lexemes
import TableLexer.Proofs.Scanner.Remainder

/-!
# Words kept apart

A byte that is skipped, and that no accepting state has an edge on, can stand between any two words:
a word ends in front of it, wherever it was cut out of a source, and behind it the scan goes on with
the next word. So the words of a source can be written down again with this byte between them, and
what is written gives the same transcript, but for a failure that the source ended in. In the table
for a small Java, the space is such a byte.
-/

namespace TableLexer

namespace Automaton

variable {a : Automaton} {gap : UInt8}

/-- A byte that keeps words apart: it is skipped, and no word can go on with it. -/
structure Separates (a : Automaton) (gap : UInt8) : Prop where
  /-- The start state has an edge back to itself. -/
  skipped : a.next? State.start gap = some State.start
  /-- No other state that accepts has an edge. -/
  blocked : ∀ state, state ≠ State.start → a.accepts state → a.next? state gap = none

/-- Whether the words of every source, written down with a byte between them, give the transcript of
the source again, and no failure. While numbers last, these words are the tokens of the source. -/
def Reprints (a : Automaton) (gap : UInt8) : Prop :=
  ∀ source,
    a.scan ([gap].intercalate ((a.reading source).words.map Word.bytes)) =
      { a.scan source with error := none } ∧
    ((a.scan source).lexicon.size ≤ UInt32.size →
      (a.scan source).Spells (a.reading source).words)

/-- A byte that keeps words apart is skipped. -/
theorem Separates.skips (h : a.Separates gap) : a.Skips [gap] := by
  rw [Skips, walk?, h.skipped, Option.bind_some, walk?]

/-- A lexeme ends in front of the byte. -/
theorem Separates.next?_eq_none (h : a.Separates gap) {bytes : List UInt8} {category : Category}
    (hlexeme : a.IsLexeme bytes category) {state : State}
    (hwalk : a.walk? State.start bytes = some state) : a.next? state gap = none := by
  apply h.blocked
  · rintro rfl
    have hlength := List.length_pos_of_ne_nil hlexeme.ne_nil
    have hend := (stateAt?_length a bytes).trans hwalk
    exact hlexeme.leaves bytes.length hlength (Nat.le_refl _) hend
  · have hcategory := hlexeme.category_eq
    rw [hwalk, Option.bind_some] at hcategory
    exact Option.isSome_of_eq_some hcategory

/-- Lexemes with the byte between them are read one after the other, and nothing else is. -/
theorem Separates.reading_intercalate (h : a.Separates gap) {words : List Word}
    (hwords : ∀ word ∈ words,
      ∃ category, a.IsLexeme word.bytes category ∧ word = .ofLexeme category word.bytes) :
    a.reading ([gap].intercalate (words.map Word.bytes)) = ⟨words, none⟩ := by
  induction words with
  | nil => exact reading_nil a
  | cons word words ih =>
    obtain ⟨category, hlexeme, hword⟩ := hwords word List.mem_cons_self
    have hlater := ih fun other hmem => hwords other (List.mem_cons_of_mem _ hmem)
    cases words with
    | nil =>
      rw [List.map_singleton, List.intercalate_singleton, hlexeme.reading_eq, ← hword]
    | cons next words =>
      rw [List.map_cons, List.map_cons, List.intercalate_cons_cons, ← List.map_cons,
        List.append_assoc, hlexeme.reading_append, reading_append_of_skips h.skips, hlater, ← hword]
      · rfl
      · intro state hwalk b hb
        obtain rfl : gap = b := by simpa using hb
        exact h.next?_eq_none hlexeme hwalk

/-- Words with such a byte between them are read as the same words. -/
theorem Separates.reprints (h : a.Separates gap) : a.Reprints gap := by
  intro source
  refine ⟨?_, spells_scan⟩
  rw [scan_eq_reading, scan_eq_reading a source,
    h.reading_intercalate fun word hmem => exists_isLexeme_of_mem hmem]
  rfl

end Automaton

namespace MiniJava

/-- Between words of the small Java, a space is skipped, and no word goes on with one. -/
theorem separates_space {a : Automaton} (h : automaton = .ok a) : a.Separates 0x20 where
  skipped := next?_state h .start 0x20
  blocked := by
    intro state hstart haccepts
    obtain ⟨phase, rfl⟩ := exists_phase_of_accepts h haccepts
    have hcategory : phase.category?.isSome := by
      rw [← category?_state h]
      exact haccepts
    have hstep : phase.step 0x20 = none := by
      revert hstart hcategory
      cases phase <;> decide
    rw [next?_state h, hstep, Option.map_none]

end MiniJava

/-- If an automaton skips a byte and none of its accepting states has an edge on it, then the words
of every source, written down with this byte between them, give the same tokens and the same
lexicon as the source, and no failure. The automaton of the small Java does so with the space. -/
theorem Automaton.reprints_of_separates :
    (∀ (a : Automaton) (gap : UInt8), a.Separates gap → a.Reprints gap) ∧
      ∃ a, MiniJava.automaton = .ok a ∧ a.Separates 0x20 ∧ a.Reprints 0x20 := by
  obtain ⟨a, ha⟩ := MiniJava.exists_automaton
  have hspace := MiniJava.separates_space ha
  exact ⟨fun _ _ h => h.reprints, a, ha, hspace, hspace.reprints⟩

/-- A blank keeps numbers apart. -/
theorem Automaton.separates_numerals : numerals.Separates 0x20 where
  skipped := by decide +kernel
  blocked := by
    intro state _ haccepts
    obtain ⟨category, hcategory⟩ := Option.isSome_iff_exists.mp haccepts
    rw [category?_eq_some_iff, acceptance_of_ofRules ofRules_numerals] at hcategory
    have hstate : state = 1 ∨ state = 3 := by
      revert hcategory
      cases category <;> simp +contextual [numeralAcceptance, Acceptance.states]
    rcases hstate with rfl | rfl <;> decide +kernel

/-- The numbers are written down again without the point that ended the scan in a failure. -/
theorem Automaton.reprints_of_separates_numerals :
    numerals.Separates 0x20 ∧ (numerals.scan repeatedText).error = some ⟨7⟩ ∧
      numerals.scan [0x31, 0x31, 0x20, 0x31, 0x20, 0x31, 0x31] =
        { numerals.scan repeatedText with error := none } := by
  have hwords : (numerals.reading repeatedText).words.map Word.bytes =
      [[0x31, 0x31], [0x31], [0x31, 0x31]] := by
    decide +kernel
  have hstuck : (numerals.reading repeatedText).stuck = some 7 := by decide +kernel
  have hscan := (reprints_of_separates.1 numerals 0x20 separates_numerals repeatedText).1
  rw [hwords] at hscan
  refine ⟨separates_numerals, ?_, hscan⟩
  rw [scan_eq_reading, Reading.transcript, hstuck]
  rfl

end TableLexer
