import TableLexer.Scanner.Munch
import TableLexer.Token

/-!
# Scanners

A scanner cuts a source into tokens, one at a time and each as long as possible. It stands at a byte
of the source, numbers the lexemes in its lexicon, and stops for good at the first failure, which it
repeats from then on. Every token takes one byte at least, so whoever asks for one token after
another comes to an end.
-/

namespace TableLexer

/-- Where a scan failed. -/
structure LexicalError where
  /-- The number of bytes before the place. -/
  position : Nat
  deriving DecidableEq, Repr

/-- The text of a failure of a scan. -/
def LexicalError.message (e : LexicalError) : String :=
  s!"Lexer Error at character number {e.position}"

/-- The text of a lexeme: each byte is the character of the same code. -/
def lexemeText (bytes : List UInt8) : String := String.ofList (bytes.map Char.ofUInt8)

/-- A source in the course of being cut into tokens by an automaton. -/
structure Scanner (a : Automaton) where
  /-- The whole source. -/
  source : List UInt8
  /-- How many of its bytes lie behind the scanner. -/
  position : Nat
  /-- The bytes that lie ahead. -/
  rest : List UInt8
  /-- The lexemes so far. -/
  lexicon : Lexicon
  /-- The failure that ended the scan. -/
  failure : Option LexicalError
  /-- The scanner stands within the source. -/
  position_le : position ≤ source.length
  /-- The bytes ahead are those of the source. -/
  rest_eq : rest = source.drop position
  /-- A failed scanner stands at the place of its failure. -/
  failure_at : ∀ e ∈ failure, e.position = position

namespace Scanner

variable {a : Automaton}

/-- The scanner at the front of a source. -/
def ofSource (a : Automaton) (source : List UInt8) : Scanner a where
  source := source
  position := 0
  rest := source
  lexicon := Lexicon.empty
  failure := none
  position_le := Nat.zero_le _
  rest_eq := rfl
  failure_at := by simp

/-- The rest is as long as the way to the end of the source. -/
theorem length_rest (s : Scanner a) : s.rest.length = s.source.length - s.position := by
  rw [s.rest_eq, List.length_drop]

/-- Whether all bytes lie behind the scanner. -/
def atEnd (s : Scanner a) : Bool := s.rest.isEmpty

/-- A scanner is at the end if all of the source is behind it. -/
theorem atEnd_iff (s : Scanner a) : s.atEnd ↔ s.position = s.source.length := by
  have hlength := s.length_rest
  have hle := s.position_le
  rw [atEnd, List.isEmpty_iff_length_eq_zero]
  omega

/-- The text of a number of the lexicon. -/
def lexeme? (s : Scanner a) (id : TokenId) : Option String := s.lexicon.text? id

/-- Moves ahead by some bytes, with another lexicon. -/
def advance (s : Scanner a) (count : Nat) (hcount : count ≤ s.rest.length) (lexicon : Lexicon) :
    Scanner a where
  source := s.source
  position := s.position + count
  rest := s.rest.drop count
  lexicon := lexicon
  failure := none
  position_le := by
    have hlength := s.length_rest
    have hle := s.position_le
    omega
  rest_eq := by rw [s.rest_eq, List.drop_drop]
  failure_at := by simp

/-- Stops for good at the place where the scanner stands. -/
def fail (s : Scanner a) : Scanner a :=
  { s with
    failure := some ⟨s.position⟩
    failure_at := by simp }

/-- The next token, or none at the end of the source, or the failure that ends the scan; and the
scanner after that. -/
def nextToken (s : Scanner a) : Except LexicalError (Option Token) × Scanner a :=
  match s.failure with
  | some e => (.error e, s)
  | none =>
    match hmunch : a.munch s.rest with
    | .lexeme start stop category =>
      let text := lexemeText ((s.rest.take stop).drop start)
      let (id, lexicon) := s.lexicon.intern text
      (.ok (some ⟨id, category.resolve text⟩),
        s.advance stop (Automaton.munch_lexeme hmunch).2 lexicon)
    | .exhausted => (.ok none, s.advance s.rest.length (Nat.le_refl _) s.lexicon)
    | .stuck read =>
      let stopped := (s.advance read (Automaton.munch_stuck hmunch) s.lexicon).fail
      (.error ⟨stopped.position⟩, stopped)

/-- A failed scanner repeats its failure. -/
theorem nextToken_of_failure {s : Scanner a} {e : LexicalError} (h : s.failure = some e) :
    s.nextToken = (.error e, s) := by
  unfold nextToken
  simp only [h]

/-- Every token takes one byte at least. -/
theorem length_rest_lt {s later : Scanner a} {token : Token}
    (h : s.nextToken = (.ok (some token), later)) : later.rest.length < s.rest.length := by
  unfold nextToken at h
  split at h
  · simp at h
  · split at h
    · next start stop category hmunch =>
      have hbounds := Automaton.munch_lexeme hmunch
      obtain ⟨-, rfl⟩ := Prod.mk.inj h
      simp only [advance, List.length_drop]
      omega
    · simp at h
    · simp at h

/-- The lexicon of a scanner that answers a token knows the lexeme of the token. -/
theorem lexeme?_isSome {s later : Scanner a} {token : Token}
    (h : s.nextToken = (.ok (some token), later)) : (later.lexeme? token.id).isSome := by
  unfold nextToken at h
  split at h
  · simp at h
  · split at h
    · obtain ⟨htoken, rfl⟩ := Prod.mk.inj h
      simp only [Except.ok.injEq, Option.some.injEq] at htoken
      subst htoken
      exact Lexicon.text?_intern_isSome _ _
    · simp at h
    · simp at h

/-- The next item of a scan: a token, or a failure the first time it is met. There is none at the
end of the source and none behind a failure. -/
def next (s : Scanner a) : Option (Except LexicalError Token) × Scanner a :=
  match s.failure with
  | some _ => (none, s)
  | none =>
    match s.nextToken with
    | (.ok (some token), later) => (some (.ok token), later)
    | (.ok none, later) => (none, later)
    | (.error e, later) => (some (.error e), later)

/-- A failed scanner has no further items. -/
theorem next_of_failure {s : Scanner a} {e : LexicalError} (h : s.failure = some e) :
    s.next = (none, s) := by
  unfold next
  simp only [h]

/-- As long as a scanner has not failed, its items are the answers to requests for tokens. -/
theorem next_of_nextToken {s later : Scanner a} {answer : Except LexicalError (Option Token)}
    (hfailure : s.failure = none) (h : s.nextToken = (answer, later)) :
    s.next = (match answer with
      | .ok token => token.map .ok
      | .error e => some (.error e), later) := by
  unfold next
  simp only [hfailure, h]
  cases answer with
  | error e => rfl
  | ok token => cases token <;> rfl

/-- A token that is answered as an item leaves less of the source. -/
theorem length_rest_lt_of_next {s later : Scanner a} {token : Token}
    (h : s.next = (some (.ok token), later)) : later.rest.length < s.rest.length := by
  unfold next at h
  split at h
  · simp at h
  · split at h
    · next found after hnext =>
      obtain ⟨-, rfl⟩ := Prod.mk.inj h
      exact length_rest_lt hnext
    · simp at h
    · simp at h

/-- All items of a scan that are left, up to the first failure. The tokens before a failure are
lost, but their lexemes stay in the lexicon. A scanner that has failed has no items left. -/
def tokenize (s : Scanner a) : Except LexicalError (List Token) × Scanner a :=
  match _hnext : s.next with
  | (none, later) => (.ok [], later)
  | (some (.error e), later) => (.error e, later)
  | (some (.ok token), later) =>
    let (tokens, final) := later.tokenize
    (tokens.map (token :: ·), final)
termination_by s.rest.length
decreasing_by exact length_rest_lt_of_next _hnext

/-- Where there are no further items, none are left. -/
theorem tokenize_of_none {s later : Scanner a} (h : s.next = (none, later)) :
    s.tokenize = (.ok [], later) := by
  rw [tokenize]
  split <;> simp_all

/-- A failure is all that is left. -/
theorem tokenize_of_error {s later : Scanner a} {e : LexicalError}
    (h : s.next = (some (.error e), later)) : s.tokenize = (.error e, later) := by
  rw [tokenize]
  split <;> simp_all

/-- A token stands before the items that are left after it, unless there is a failure. -/
theorem tokenize_of_token {s later : Scanner a} {token : Token}
    (h : s.next = (some (.ok token), later)) :
    s.tokenize = (later.tokenize.1.map (token :: ·), later.tokenize.2) := by
  rw [tokenize]
  split <;> simp_all

end Scanner

end TableLexer
