import TableLexer.Scanner.Basic

/-!
# Transcripts

A transcript is all that a scan has produced by its end: the tokens, the lexicon that their numbers
refer to, and the failure if there was one. The tokens before a failure are kept.
-/

namespace TableLexer

/-- What a scan has produced by its end. -/
structure Transcript where
  /-- The tokens in the order of the source. -/
  tokens : List Token
  /-- The lexemes, by their numbers. -/
  lexicon : Lexicon
  /-- The failure that ended the scan, unless it came to the end of the source. -/
  error : Option LexicalError

/-- The lexeme of a token of a transcript. -/
def Transcript.lexeme? (transcript : Transcript) (token : Token) : Option String :=
  transcript.lexicon.text? token.id

/-- The transcript of what is left of a scan. The lexicon is that of the whole scan. -/
def Scanner.transcript {a : Automaton} (s : Scanner a) : Transcript :=
  match _hnext : s.nextToken with
  | (.ok none, later) => ⟨[], later.lexicon, none⟩
  | (.error e, later) => ⟨[], later.lexicon, some e⟩
  | (.ok (some token), later) =>
    let remaining := later.transcript
    { remaining with tokens := token :: remaining.tokens }
termination_by s.rest.length
decreasing_by exact length_rest_lt _hnext

/-- A transcript of the end of the source is empty. -/
theorem Scanner.transcript_of_end {a : Automaton} {s later : Scanner a}
    (h : s.nextToken = (.ok none, later)) : s.transcript = ⟨[], later.lexicon, none⟩ := by
  rw [transcript]
  split <;> simp_all

/-- A transcript of a failure is empty but for the failure. -/
theorem Scanner.transcript_of_error {a : Automaton} {s later : Scanner a} {e : LexicalError}
    (h : s.nextToken = (.error e, later)) : s.transcript = ⟨[], later.lexicon, some e⟩ := by
  rw [transcript]
  split <;> simp_all

/-- A token stands before the transcript of what is left after it. -/
theorem Scanner.transcript_of_token {a : Automaton} {s later : Scanner a} {token : Token}
    (h : s.nextToken = (.ok (some token), later)) :
    s.transcript = { later.transcript with tokens := token :: later.transcript.tokens } := by
  rw [transcript]
  split <;> simp_all

/-- The transcript of a source. -/
def Automaton.scan (a : Automaton) (source : List UInt8) : Transcript :=
  (Scanner.ofSource a source).transcript

/-- The transcripts of many sources. Each has a lexicon of its own. -/
def Automaton.scanAll (a : Automaton) (sources : List (List UInt8)) : List Transcript :=
  sources.map a.scan

end TableLexer
