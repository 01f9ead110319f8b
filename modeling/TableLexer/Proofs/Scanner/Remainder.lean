import TableLexer.Proofs.Scanner.Bisimulation
import TableLexer.Proofs.Scanner.Lifecycle

/-!
# What is left of a scan

A scanner goes on in the same way wherever it comes from: what it reads is what a scanner at the
front of the bytes ahead would read. Skipped text ahead makes no difference either. An attempt that
has come through skipped text is in step with one that begins behind it, so the longest match is the
same up to the distance between them.
-/

namespace TableLexer

namespace Attempt

/-- Having read all of some bytes, an attempt goes on with the bytes behind them. -/
theorem run_append {a : Automaton} {attempt : Attempt} {front : List UInt8}
    (h : (attempt.run a front).2 = []) (rest : List UInt8) :
    attempt.run a (front ++ rest) = (attempt.run a front).1.run a rest := by
  induction front generalizing attempt with
  | nil => rfl
  | cons byte front ih =>
    unfold Attempt.run at h
    rw [List.cons_append]
    cases hnext : a.next? attempt.state byte with
    | none => simp [hnext] at h
    | some target =>
      simp only [hnext] at h
      simp only [Attempt.run, hnext]
      exact ih h

/-- Skipped text leaves an attempt at the start state, with nothing found. -/
theorem run_of_skips {a : Automaton} {skipped : List UInt8} (h : a.Skips skipped) :
    initial.run a skipped = (⟨State.start, skipped.length, skipped.length, none⟩, []) := by
  obtain ⟨htracks, hleft, hstop⟩ := (initial_tracks a skipped).run (List.drop_zero).symm
  generalize initial.run a skipped = ended at htracks hleft hstop
  obtain ⟨⟨state, read, start, found⟩, left⟩ := ended
  obtain rfl : read = skipped.length := hstop.unique h.stopsAt
  obtain rfl : start = skipped.length := htracks.start_last.unique h.lastStart
  have hstate : some state = some State.start := htracks.state_eq.symm.trans h.lastStart.here
  have hfound : found = none := by
    cases found with
    | none => rfl
    | some last =>
      have haccept := htracks.found_last last rfl
      have hlt := haccept.lt
      have hle := haccept.le
      simp only at hlt hle
      omega
  simp only [List.drop_length] at hleft
  rw [hleft, hfound, Option.some.inj hstate]

end Attempt

namespace Automaton

variable {a : Automaton}

/-- The longest match is the same behind skipped text. -/
theorem munch_append_of_skips {skipped : List UInt8} (h : a.Skips skipped) (rest : List UInt8) :
    a.munch (skipped ++ rest) = (a.munch rest).shift skipped.length := by
  have hrun := Attempt.run_of_skips h
  have hinstep : Attempt.InStep Eq skipped.length Attempt.initial
      ⟨State.start, skipped.length, skipped.length, none⟩ := ⟨rfl, rfl, rfl, rfl⟩
  rw [munch, Attempt.run_append (by rw [hrun]) rest, hrun]
  exact hinstep.outcome_run (.refl a) rest

/-- Behind skipped text, the same words are read. -/
theorem reading_append_of_skips {skipped : List UInt8} (h : a.Skips skipped) (rest : List UInt8) :
    a.reading (skipped ++ rest) =
      ⟨(a.reading rest).words, (a.reading rest).stuck.map (skipped.length + ·)⟩ := by
  have hmunch := munch_append_of_skips h rest
  cases hrest : a.munch rest with
  | exhausted =>
    rw [hrest] at hmunch
    rw [reading_of_exhausted hmunch, reading_of_exhausted hrest]
    rfl
  | stuck read =>
    rw [hrest] at hmunch
    rw [reading_of_stuck hmunch, reading_of_stuck hrest]
    rfl
  | lexeme start stop category =>
    rw [hrest] at hmunch
    have hcut : (skipped ++ rest).extract (skipped.length + start) (skipped.length + stop) =
        rest.extract start stop := by
      rw [List.extract_eq_take_drop, List.extract_eq_take_drop, List.drop_length_add_append,
        Nat.add_sub_add_left]
    rw [reading_of_lexeme hmunch, reading_of_lexeme hrest, hcut, List.drop_length_add_append]
    simp only [Option.map_map, Function.comp_def, Nat.add_assoc]

end Automaton

/-- A failure, seen from some bytes further back. -/
def LexicalError.shift (count : Nat) (e : LexicalError) : LexicalError := ⟨count + e.position⟩

namespace Scanner

variable {a : Automaton}

/-- Requests for tokens leave the transcript its lexicon: it is the one at the end of the scan. -/
theorem Reaches.transcript_lexicon {s later : Scanner a} (h : s.Reaches later) :
    later.transcript.lexicon = s.transcript.lexicon := by
  induction h with
  | refl => rfl
  | @step s later _ ih =>
    rw [ih]
    cases hnext : s.nextToken with
    | mk answer next =>
      cases answer with
      | ok token =>
        cases token with
        | some token => rw [transcript_of_token hnext]
        | none => rw [transcript_of_end hnext, transcript_of_end (nextToken_again hnext)]
      | error e =>
        have hagain := nextToken_of_failure (failure_of_error hnext)
        rw [transcript_of_error hnext, transcript_of_error hagain]

/-- What is left of a scan reads the words behind skipped text ahead, with the failure seen from
there. -/
theorem transcript_of_skipped {s : Scanner a} (hfailure : s.failure = none) {place : Nat}
    (hposition : s.position ≤ place) (hplace : place ≤ s.source.length)
    (hskips : a.Skips (s.source.extract s.position place)) :
    s.transcript = (a.reading (s.source.drop place)).transcript place s.lexicon := by
  have hlength : (s.source.extract s.position place).length = place - s.position := by
    rw [List.extract_eq_take_drop, List.length_take, List.length_drop]
    omega
  have hrest : s.rest = s.source.extract s.position place ++ s.source.drop place := by
    have hbehind : s.source.drop place = s.rest.drop (place - s.position) := by
      rw [s.rest_eq, List.drop_drop, Nat.add_sub_cancel' hposition]
    rw [hbehind, List.extract_eq_take_drop, ← s.rest_eq, List.take_append_drop]
  rw [s.transcript_eq_reading hfailure, hrest, Automaton.reading_append_of_skips hskips, hlength]
  simp only [Reading.transcript, Option.map_map, Function.comp_def]
  congr 2
  funext read
  congr 1
  omega

/-- What a scanner that has not failed still gives depends on the bytes ahead only, and not on
skipped text at the front of them: it is what a scan of the bytes behind the skipped text gives,
with a failure seen from there. If the scanner is at the front of its source, the numbers of the
tokens and the lexicon are the same, too. -/
theorem transcript_of_rest (a : Automaton) (source : List UInt8)
    (hsize : (a.scan source).lexicon.size ≤ UInt32.size) :
    (∀ operations s place, (ofSource a source).performAll operations = s → s.failure = none →
      s.position ≤ place → place ≤ source.length →
      a.Skips (source.extract s.position place) →
      ∃ words, s.transcript.Spells words ∧ (a.scan (source.drop place)).Spells words ∧
        s.transcript.error = (a.scan (source.drop place)).error.map (.shift place)) ∧
    ∀ place ≤ source.length, a.Skips (source.take place) →
      (a.scan source).tokens = (a.scan (source.drop place)).tokens ∧
        (a.scan source).lexicon = (a.scan (source.drop place)).lexicon := by
  constructor
  · intro operations s place hs hfailure hposition hplace hskips
    have hreaches := (ofSource a source).reaches_performAll operations
    rw [hs] at hreaches
    have hsource : s.source = source := hreaches.precedes.source_eq
    have hsize' : s.transcript.lexicon.size ≤ UInt32.size := by
      rw [hreaches.transcript_lexicon]
      exact hsize
    rw [← hsource] at hplace hskips
    have htranscript := transcript_of_skipped hfailure hposition hplace hskips
    rw [hsource] at htranscript
    rw [htranscript] at hsize' ⊢
    rw [Automaton.scan_eq_reading]
    refine ⟨(a.reading (source.drop place)).words, Reading.spells_transcript hsize', ?_, ?_⟩
    · -- the lexicon of the scan behind the skipped text has no more texts than that of the scanner
      apply Reading.spells_transcript
      exact Nat.le_trans (Lexicon.size_internAll_empty_le s.lexicon _) hsize'
    · simp [Reading.transcript, LexicalError.shift, Function.comp_def]
  · intro place hplace hskips
    have hskips' : a.Skips ((ofSource a source).source.extract 0 place) := by
      simpa [ofSource] using hskips
    have htranscript := transcript_of_skipped (s := ofSource a source) rfl (Nat.zero_le place)
      hplace hskips'
    rw [Automaton.scan, htranscript, Automaton.scan_eq_reading]
    exact ⟨rfl, rfl⟩

/-- Blanks before two numbers, and a point behind the second that is given back. -/
def spacedText : List UInt8 := [0x20, 0x31, 0x20, 0x20, 0x31, 0x31, 0x2E]

/-- Behind the first number, the scan goes on like one of the second number and the point. The blank
at the front makes no difference at all. -/
theorem transcript_of_rest_numerals :
    (Automaton.numerals.scan spacedText).lexicon.size ≤ UInt32.size ∧
    (∃ s, (ofSource Automaton.numerals spacedText).performAll [.nextToken] = s ∧
      s.failure = none ∧ s.position = 2 ∧ Automaton.numerals.Skips (spacedText.extract 2 4) ∧
      s.transcript.error = some ⟨6⟩ ∧ ∃ words, s.transcript.Spells words ∧
        (Automaton.numerals.scan (spacedText.drop 4)).Spells words) ∧
    Automaton.numerals.Skips (spacedText.take 1) ∧
    (Automaton.numerals.scan spacedText).tokens =
      (Automaton.numerals.scan (spacedText.drop 1)).tokens := by
  have hsize : (Automaton.numerals.scan spacedText).lexicon.size ≤ UInt32.size :=
    Nat.le_trans (size_transcript_le _) (by decide)
  obtain ⟨hrest, hfront⟩ := transcript_of_rest Automaton.numerals spacedText hsize
  have hnumber : Automaton.numerals.munch spacedText = .lexeme 1 2 .integerLiteral := by
    decide +kernel
  have hblank : Automaton.numerals.Skips (spacedText.take 1) := by
    unfold Automaton.Skips
    decide +kernel
  have hblanks : Automaton.numerals.Skips (spacedText.extract 2 4) := by
    unfold Automaton.Skips
    decide +kernel
  have hstuck : (Automaton.numerals.reading (spacedText.drop 4)).stuck = some 2 := by
    decide +kernel
  obtain ⟨s, hnext, hmoves⟩ :=
    nextToken_of_lexeme (s := ofSource Automaton.numerals spacedText) rfl hnumber
  have hs : (ofSource Automaton.numerals spacedText).performAll [.nextToken] = s :=
    congrArg Prod.snd hnext
  have hposition : s.position = 2 := hmoves.position_eq
  obtain ⟨words, hspells, hspells', herror⟩ := hrest [.nextToken] s 4 hs hmoves.failure_eq
    (by omega) (by decide) (by rwa [hposition])
  rw [Automaton.scan_eq_reading, Reading.transcript, hstuck] at herror
  exact ⟨hsize, ⟨s, hs, hmoves.failure_eq, hposition, hblanks, herror, words, hspells, hspells'⟩,
    hblank, (hfront 1 (by decide) hblank).1⟩

end Scanner

end TableLexer
