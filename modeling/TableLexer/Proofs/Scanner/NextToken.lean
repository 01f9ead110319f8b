import TableLexer.Proofs.Scanner.LongestMatch

/-!
# The next token of a scanner

A scanner that has not failed moves in one of three ways: behind the lexeme of a token, to the end
of the source, or to the place where it fails. One that has failed stays where it is. `Moves` tells
all that changes in each of these, so that `nextToken` is opened once only. Put in terms of the walk
over the bytes ahead, the moves are the rules of the longest match.
-/

namespace TableLexer

namespace Scanner

variable {a : Automaton}

/-- The text of the bytes between two places ahead of the scanner. -/
def textAhead (s : Scanner a) (start stop : Nat) : String :=
  lexemeText (s.source.extract (s.position + start) (s.position + stop))

/-- A scanner differs from an earlier one by some bytes behind it, its lexicon and its failure. -/
structure MovesTo (s later : Scanner a) (count : Nat) (lexicon : Lexicon)
    (failure : Option LexicalError) : Prop where
  /-- The source is the same. -/
  source_eq : later.source = s.source
  /-- The scanner stands behind the bytes. -/
  position_eq : later.position = s.position + count
  /-- It knows the lexemes of the lexicon. -/
  lexicon_eq : later.lexicon = lexicon
  /-- It has failed or not, as given. -/
  failure_eq : later.failure = failure

/-- A scanner that advances has some bytes more behind it. -/
theorem movesTo_advance (s : Scanner a) {count : Nat} (hcount : count ≤ s.rest.length)
    (lexicon : Lexicon) : s.MovesTo (s.advance count hcount lexicon) count lexicon none :=
  ⟨rfl, rfl, rfl, rfl⟩

/-- A scanner that advances and fails has the failure at the place where it stands. -/
theorem movesTo_fail (s : Scanner a) {count : Nat} (hcount : count ≤ s.rest.length)
    (lexicon : Lexicon) :
    s.MovesTo (s.advance count hcount lexicon).fail count lexicon (some ⟨s.position + count⟩) :=
  ⟨rfl, rfl, rfl, rfl⟩

/-- The text of the bytes between two places of the rest is the text ahead of the scanner. -/
theorem lexemeText_rest (s : Scanner a) (start stop : Nat) :
    lexemeText ((s.rest.take stop).drop start) = s.textAhead start stop := by
  rw [textAhead, List.extract_eq_take_drop, List.drop_take, s.rest_eq, List.drop_drop]
  congr 2
  omega

/-- What a scanner that is asked for a token answers, and where it goes. -/
inductive Moves (s : Scanner a) : Except LexicalError (Option Token) → Scanner a → Prop
  /-- The lexeme ahead becomes a token, with its number and its category. -/
  | token {start place : Nat} {category : Category} {later : Scanner a}
      (hfailure : s.failure = none) (hmunch : a.Munches s.rest (.lexeme start place category))
      (hmoves : s.MovesTo later place (s.lexicon.intern (s.textAhead start place)).2 none) :
      Moves s (.ok (some ⟨(s.lexicon.intern (s.textAhead start place)).1,
        category.resolve (s.textAhead start place)⟩)) later
  /-- There is nothing but skipped text ahead. -/
  | ended {later : Scanner a} (hfailure : s.failure = none) (hskips : a.Skips s.rest)
      (hmoves : s.MovesTo later s.rest.length s.lexicon none) : Moves s (.ok none) later
  /-- The automaton is stuck ahead. -/
  | stuck {stop : Nat} {later : Scanner a} (hfailure : s.failure = none)
      (hmunch : a.Munches s.rest (.stuck stop))
      (hmoves : s.MovesTo later stop s.lexicon (some ⟨s.position + stop⟩)) :
      Moves s (.error ⟨s.position + stop⟩) later
  /-- The scanner has failed before. -/
  | failed {e : LexicalError} (hfailure : s.failure = some e) : Moves s (.error e) s

/-- Every answer to a request for a token comes with the move that belongs to it. -/
theorem moves_of_nextToken {s later : Scanner a} {answer : Except LexicalError (Option Token)}
    (h : s.nextToken = (answer, later)) : s.Moves answer later := by
  unfold nextToken at h
  split at h
  · next e hfailure =>
    obtain ⟨rfl, rfl⟩ := Prod.mk.inj h
    exact .failed hfailure
  · next hfailure =>
    split at h
    · next start place category hmunch =>
      obtain ⟨rfl, rfl⟩ := Prod.mk.inj h
      rw [lexemeText_rest]
      exact .token hfailure (Automaton.munch_eq_iff.mp hmunch) (s.movesTo_advance _ _)
    · next hmunch =>
      obtain ⟨rfl, rfl⟩ := Prod.mk.inj h
      cases Automaton.munch_eq_iff.mp hmunch with
      | exhausted hskips => exact .ended hfailure hskips (s.movesTo_advance _ _)
    · next stop hmunch =>
      obtain ⟨rfl, rfl⟩ := Prod.mk.inj h
      exact .stuck hfailure (Automaton.munch_eq_iff.mp hmunch) (s.movesTo_fail _ _)

/-- The next token is the longest match behind the skipped text ahead: the lexeme begins where the
walk over the bytes ahead was last in the start state, and ends at the last accepting state behind
that. Without such a state, the source ends if the walk has come back to the start state at the end
of it, and the scan fails where the walk stops otherwise. -/
theorem nextToken_longest_match (s : Scanner a) (hfailure : s.failure = none) :
    ∃ stop start later, a.StopsAt s.rest stop ∧ a.LastStart s.rest stop start ∧
      ((∃ place category, a.LastAccept s.rest start stop place category ∧
          s.nextToken = (.ok (some ⟨(s.lexicon.intern (s.textAhead start place)).1,
            category.resolve (s.textAhead start place)⟩), later) ∧
          s.MovesTo later place (s.lexicon.intern (s.textAhead start place)).2 none) ∨
        (a.NoAccept s.rest start stop ∧
          (s.position + stop = s.source.length ∧ a.stateAt? s.rest stop = some State.start) ∧
          s.nextToken = (.ok none, later) ∧ s.MovesTo later stop s.lexicon none) ∨
        (a.NoAccept s.rest start stop ∧
          ¬(s.position + stop = s.source.length ∧ a.stateAt? s.rest stop = some State.start) ∧
          s.nextToken = (.error ⟨s.position + stop⟩, later) ∧
          s.MovesTo later stop s.lexicon (some ⟨s.position + stop⟩))) := by
  have hposition := s.position_le
  have hlength := s.length_rest
  cases hnext : s.nextToken with
  | mk answer later =>
    cases moves_of_nextToken hnext with
    | @token start place category _ _ hmunch hmoves =>
      cases hmunch with
      | lexeme hstop hstart haccept =>
        exact ⟨_, start, later, hstop, hstart, Or.inl ⟨place, category, haccept, rfl, hmoves⟩⟩
    | ended _ hskips hmoves =>
      have hstop := hskips.stopsAt
      have hstart := hskips.lastStart
      exact ⟨s.rest.length, s.rest.length, later, hstop, hstart, Or.inr (Or.inl
        ⟨hskips.noAccept hstop hstart, ⟨by omega, hstart.here⟩, rfl, hmoves⟩)⟩
    | @stuck stop _ _ hmunch hmoves =>
      cases hmunch with
      | stuck hstop hstart hno hskips =>
        refine ⟨stop, _, later, hstop, hstart, Or.inr (Or.inr ⟨hno, ?_, rfl, hmoves⟩)⟩
        rintro ⟨hend, hhere⟩
        exact hskips (hstop.skips_iff.mpr ⟨by omega, hhere⟩)
    | failed hfailed => simp [hfailure] at hfailed

/-- The blank is skipped, the point is read and given back, and the token is the number between. -/
theorem nextToken_numerals :
    (ofSource Automaton.numerals Automaton.numeralText).failure = none ∧
      ∃ later, (ofSource Automaton.numerals Automaton.numeralText).nextToken =
          (.ok (some ⟨(Lexicon.empty.intern "11").1, .integerLiteral⟩), later) ∧
        later.position = 3 := by
  have hmunch : Automaton.numerals.Munches Automaton.numeralText (.lexeme 1 3 .integerLiteral) :=
    Automaton.munch_eq_iff.mp (by decide +kernel)
  obtain ⟨stop, start, later, hstop, hstart, hcases⟩ :=
    nextToken_longest_match (ofSource Automaton.numerals Automaton.numeralText) rfl
  cases hmunch with
  | lexeme hstop' hstart' haccept' =>
    obtain rfl := hstop.unique hstop'
    obtain rfl := hstart.unique hstart'
    rcases hcases with ⟨place, category, haccept, hnext, hmoves⟩ | ⟨hno, -⟩ | ⟨hno, -⟩
    · obtain ⟨rfl, rfl⟩ := haccept.unique haccept'
      exact ⟨rfl, later, hnext, hmoves.position_eq⟩
    · exact absurd hno haccept'.not_noAccept
    · exact absurd hno haccept'.not_noAccept

end Scanner

end TableLexer
