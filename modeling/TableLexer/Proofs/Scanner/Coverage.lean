import TableLexer.Proofs.Lexicon.Growth
import TableLexer.Proofs.Scanner.NextToken
import TableLexer.Scanner.Transcript

/-!
# A scan accounts for every byte

The tokens of a scan are lexemes between two places of the source, one behind the other, and what
lies between them is skipped text. What is left behind the last token is skipped text too, or it is
where the scan failed. A step of the scanner shows this for one token; over the whole scan it
follows by induction on the transcript, with the lexicon only growing on the way.
-/

namespace TableLexer

/-- The bytes of a source between two places. -/
structure Span where
  /-- The place of the first byte. -/
  start : Nat
  /-- The place behind the last byte. -/
  stop : Nat

/-- The text of a span of a source. -/
def Span.text (source : List UInt8) (span : Span) : String :=
  lexemeText (source.extract span.start span.stop)

namespace Automaton

/-- A span that may follow a place of a source: it is not empty, it lies within the source, and
there is skipped text before it. -/
structure SpanFrom (a : Automaton) (source : List UInt8) (place : Nat) (span : Span) : Prop where
  /-- The span does not begin before the place. -/
  le : place ≤ span.start
  /-- What lies between is skipped. -/
  gap : a.Skips (source.extract place span.start)
  /-- There is a byte in the span. -/
  lt : span.start < span.stop
  /-- The span ends within the source. -/
  stop_le : span.stop ≤ source.length

/-- Spans of a source that follow one another from one place to another. -/
inductive Tiles (a : Automaton) (source : List UInt8) : Nat → List Span → Nat → Prop
  /-- No spans lead from a place to itself. -/
  | nil (place : Nat) : Tiles a source place [] place
  /-- A span that follows the place leads to the end of the span. -/
  | cons {place last : Nat} {span : Span} {spans : List Span} (hspan : a.SpanFrom source place span)
      (hrest : Tiles a source span.stop spans last) : Tiles a source place (span :: spans) last

/-- Where an automaton gets stuck at the front of some bytes: it has not skipped all of them, and no
accepting state was visited behind the skipped text. -/
structure StuckAt (a : Automaton) (input : List UInt8) (stop : Nat) : Prop where
  /-- The walk stops there. -/
  stopsAt : a.StopsAt input stop
  /-- There is more than skipped text. -/
  not_skipped : ¬(stop = input.length ∧ a.stateAt? input stop = some State.start)
  /-- There is no lexeme. -/
  noAccept : ∃ start, a.LastStart input stop start ∧ a.NoAccept input start stop

/-- What is left of a source behind the last token, given how the scan ended. -/
def EndsAt (a : Automaton) (source : List UInt8) (last : Nat) : Option LexicalError → Prop
  | none => a.Skips (source.drop last)
  | some e => last ≤ e.position ∧ e.position ≤ source.length ∧
      a.StuckAt (source.drop last) (e.position - last)

/-- The lexeme at the front of what is left behind a place is a span that may follow the place. -/
theorem Munches.spanFrom {a : Automaton} {source : List UInt8} {place start stop : Nat}
    {category : Category} (hplace : place ≤ source.length)
    (h : a.Munches (source.drop place) (.lexeme start stop category)) :
    a.SpanFrom source place ⟨place + start, place + stop⟩ := by
  cases h with
  | lexeme hstop hstart haccept =>
    have hlt := haccept.lt
    have hle := haccept.le
    have hend := hstop.le
    rw [List.length_drop] at hend
    refine ⟨Nat.le_add_right _ _, ?_, Nat.add_lt_add_left hlt place, by simp only; omega⟩
    rw [List.extract_eq_take_drop, Nat.add_sub_cancel_left]
    exact hstart.here

end Automaton

namespace Scanner

variable {a : Automaton}

/-- An answer leaves the lexicon as it is or adds a text at its end. -/
theorem Moves.extends {s later : Scanner a} {answer : Except LexicalError (Option Token)}
    (h : s.Moves answer later) : later.lexicon.Extends s.lexicon := by
  cases h with
  | token _ _ hmoves =>
    rw [hmoves.lexicon_eq]
    exact Lexicon.extends_intern _ _
  | ended _ _ hmoves =>
    rw [hmoves.lexicon_eq]
    exact Lexicon.Extends.refl _
  | stuck _ _ hmoves =>
    rw [hmoves.lexicon_eq]
    exact Lexicon.Extends.refl _
  | failed => exact Lexicon.Extends.refl _

/-- It adds one text at most, and none unless there is a token. -/
theorem Moves.size_le {s later : Scanner a} {answer : Except LexicalError (Option Token)}
    (h : s.Moves answer later) :
    later.lexicon.size ≤ s.lexicon.size + if answer.toOption.join.isSome then 1 else 0 := by
  cases h with
  | token _ _ hmoves =>
    rw [hmoves.lexicon_eq]
    exact s.lexicon.size_intern_le _
  | ended _ _ hmoves => simp [hmoves.lexicon_eq]
  | stuck _ _ hmoves => simp [hmoves.lexicon_eq]
  | failed => simp

/-- Over a whole scan, the lexicon grows at its end only. -/
theorem transcript_extends (s : Scanner a) : s.transcript.lexicon.Extends s.lexicon := by
  induction s using transcript.induct with
  | case1 s later hnext =>
    rw [transcript_of_end hnext]
    exact (moves_of_nextToken hnext).extends
  | case2 s e later hnext =>
    rw [transcript_of_error hnext]
    exact (moves_of_nextToken hnext).extends
  | case3 s token later hnext ih =>
    rw [transcript_of_token hnext]
    exact ih.trans (moves_of_nextToken hnext).extends

/-- A scan has no more lexemes than bytes. -/
theorem size_transcript_le (s : Scanner a) :
    s.transcript.lexicon.size ≤ s.lexicon.size + s.rest.length := by
  induction s using transcript.induct with
  | case1 s later hnext =>
    have hsize : later.lexicon.size ≤ s.lexicon.size := (moves_of_nextToken hnext).size_le
    rw [transcript_of_end hnext]
    simp only
    omega
  | case2 s e later hnext =>
    have hsize : later.lexicon.size ≤ s.lexicon.size := (moves_of_nextToken hnext).size_le
    rw [transcript_of_error hnext]
    simp only
    omega
  | case3 s token later hnext ih =>
    have hsize : later.lexicon.size ≤ s.lexicon.size + 1 := (moves_of_nextToken hnext).size_le
    have hrest := length_rest_lt hnext
    rw [transcript_of_token hnext]
    simp only
    omega

/-- A token is the text of a span that follows the scanner and ends where the later one stands. -/
theorem span_of_token {s later : Scanner a} {token : Token}
    (h : s.nextToken = (.ok (some token), later)) :
    ∃ span : Span, a.SpanFrom s.source s.position span ∧ span.stop = later.position ∧
      later.source = s.source ∧ later.failure = none ∧
      (later.lexicon.size ≤ UInt32.size → later.lexeme? token.id = some (span.text s.source)) := by
  cases moves_of_nextToken h with
  | @token start place category _ _ hmunch hmoves =>
    rw [s.rest_eq] at hmunch
    refine ⟨⟨s.position + start, s.position + place⟩, hmunch.spanFrom s.position_le,
      hmoves.position_eq.symm, hmoves.source_eq, hmoves.failure_eq, ?_⟩
    intro hsize
    rw [hmoves.lexicon_eq] at hsize
    rw [lexeme?, hmoves.lexicon_eq]
    exact Lexicon.text?_intern hsize

/-- At the end of the source there is nothing but skipped text ahead. -/
theorem endsAt_of_end {s later : Scanner a} (h : s.nextToken = (.ok none, later)) :
    a.EndsAt s.source s.position none := by
  cases moves_of_nextToken h with
  | ended _ hskips _ =>
    rw [s.rest_eq] at hskips
    exact hskips

/-- Where the walk is stuck, the source ends as the failure says. -/
theorem endsAt_of_error {s later : Scanner a} {e : LexicalError} (hfailure : s.failure = none)
    (h : s.nextToken = (.error e, later)) : a.EndsAt s.source s.position (some e) := by
  cases moves_of_nextToken h with
  | stuck _ hmunch _ =>
    cases hmunch with
    | stuck hstop hstart hno hskips =>
      have hle := hstop.le
      have hlength := s.length_rest
      have hposition := s.position_le
      refine ⟨Nat.le_add_right _ _, ?_, ?_⟩
      · simp only
        omega
      · rw [Nat.add_sub_cancel_left, ← s.rest_eq]
        exact ⟨hstop, mt hstop.skips_iff.mpr hskips, _, hstart, hno⟩
  | failed hfailed => simp [hfailure] at hfailed

/-- The tokens that are left of a scan are the texts of spans from the scanner on. -/
theorem transcript_tiles (s : Scanner a) (hfailure : s.failure = none)
    (hsize : s.transcript.lexicon.size ≤ UInt32.size) :
    ∃ spans last, a.Tiles s.source s.position spans last ∧
      s.transcript.tokens.map s.transcript.lexeme? = spans.map (some ∘ Span.text s.source) ∧
      a.EndsAt s.source last s.transcript.error := by
  induction s using transcript.induct with
  | case1 s later hnext =>
    rw [transcript_of_end hnext]
    exact ⟨[], s.position, .nil _, rfl, endsAt_of_end hnext⟩
  | case2 s e later hnext =>
    rw [transcript_of_error hnext]
    exact ⟨[], s.position, .nil _, rfl, endsAt_of_error hfailure hnext⟩
  | case3 s token later hnext ih =>
    obtain ⟨span, hspan, hposition, hsource, hlater, htext⟩ := span_of_token hnext
    -- the lexicon grows further behind the token, and keeps the text of the token
    have hextends := later.transcript_extends
    rw [transcript_of_token hnext] at hsize ⊢
    obtain ⟨spans, last, htiles, hlexemes, hends⟩ := ih hlater hsize
    have htoken : later.transcript.lexeme? token = some (span.text s.source) :=
      hextends.text? (htext (Nat.le_trans hextends.size_le hsize))
    rw [hsource] at htiles hlexemes hends
    rw [← hposition] at htiles
    refine ⟨span :: spans, last, .cons hspan htiles, ?_, hends⟩
    rw [List.map_cons, List.map_cons, ← hlexemes]
    exact congrArg (· :: _) htoken

end Scanner

namespace Automaton

/-- The tokens of a scan are the texts of spans of the source that follow one another, with skipped
text between them, and the source ends behind the last of them as the scan did. -/
theorem scan_tiles (a : Automaton) (source : List UInt8)
    (hsize : (a.scan source).lexicon.size ≤ UInt32.size) :
    ∃ spans last, a.Tiles source 0 spans last ∧
      (a.scan source).tokens.map (a.scan source).lexeme? =
        spans.map (some ∘ Span.text source) ∧
      a.EndsAt source last (a.scan source).error :=
  (Scanner.ofSource a source).transcript_tiles rfl hsize

/-- The number is a lexeme behind the blank, and the scan fails at the point that it gave back. -/
theorem scan_tiles_numerals :
    (numerals.scan numeralText).lexicon.size ≤ UInt32.size ∧
      ∃ spans last, numerals.Tiles numeralText 0 spans last ∧
        (numerals.scan numeralText).tokens.map (numerals.scan numeralText).lexeme? =
          spans.map (some ∘ Span.text numeralText) ∧
        numerals.EndsAt numeralText last (numerals.scan numeralText).error := by
  have hsize : (numerals.scan numeralText).lexicon.size ≤ UInt32.size :=
    Nat.le_trans (Scanner.size_transcript_le _) (by decide)
  exact ⟨hsize, scan_tiles numerals numeralText hsize⟩

end Automaton

end TableLexer
