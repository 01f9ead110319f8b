import TableLexer.Proofs.Scanner.Coverage

/-!
# The stream of a scan

A scanner that is asked for token after token answers some tokens, and then that the source has
ended or that the scan has failed. From then on it stands still: it gives the same answer again and
does not change. The stream is stated without any of the loops that consume it, so that each loop
can be compared with it: the transcript, the items one by one, and all items at once.
-/

namespace TableLexer.Scanner

variable {a : Automaton}

/-- A scanner that moves by no bytes, to its own lexicon and its own failure, does not move. -/
theorem MovesTo.eq_self {s later : Scanner a} (h : s.MovesTo later 0 s.lexicon s.failure) :
    later = s := by
  obtain ⟨hsource, hposition, hlexicon, hfailure⟩ := h
  have hrest : later.rest = s.rest := by
    rw [later.rest_eq, s.rest_eq, hsource, hposition, Nat.add_zero]
  cases later
  cases s
  simp_all

/-- A scanner that answers a token has not failed. -/
theorem failure_of_token {s later : Scanner a} {token : Token}
    (h : s.nextToken = (.ok (some token), later)) : later.failure = none := by
  cases moves_of_nextToken h with
  | token _ _ hmoves => exact hmoves.failure_eq

/-- A scanner keeps the failure that it answers. -/
theorem failure_of_error {s later : Scanner a} {e : LexicalError}
    (h : s.nextToken = (.error e, later)) : later.failure = some e := by
  cases moves_of_nextToken h with
  | stuck _ _ hmoves => exact hmoves.failure_eq
  | failed hfailure => exact hfailure

/-- A lexeme ahead becomes a token, and the scanner moves behind it. -/
theorem nextToken_of_lexeme {s : Scanner a} (hfailure : s.failure = none) {start place : Nat}
    {category : Category} (hmunch : a.munch s.rest = .lexeme start place category) :
    ∃ later, s.nextToken = (.ok (some ⟨(s.lexicon.intern (s.textAhead start place)).1,
        category.resolve (s.textAhead start place)⟩), later) ∧
      s.MovesTo later place (s.lexicon.intern (s.textAhead start place)).2 none := by
  have hmunches := Automaton.munch_eq_iff.mp hmunch
  cases hnext : s.nextToken with
  | mk answer later =>
    cases moves_of_nextToken hnext with
    | token _ hother hmoves =>
      cases hmunches.unique hother
      exact ⟨later, rfl, hmoves⟩
    | ended _ hskips _ => cases hmunches.unique (.exhausted hskips)
    | stuck _ hother _ => cases hmunches.unique hother
    | failed hfailed => simp [hfailure] at hfailed

/-- Where the automaton is stuck ahead, the scan fails. -/
theorem nextToken_of_stuck {s : Scanner a} (hfailure : s.failure = none) {stop : Nat}
    (hmunch : a.munch s.rest = .stuck stop) :
    ∃ later, s.nextToken = (.error ⟨s.position + stop⟩, later) ∧
      s.MovesTo later stop s.lexicon (some ⟨s.position + stop⟩) := by
  have hmunches := Automaton.munch_eq_iff.mp hmunch
  cases hnext : s.nextToken with
  | mk answer later =>
    cases moves_of_nextToken hnext with
    | token _ hother _ => cases hmunches.unique hother
    | ended _ hskips _ => cases hmunches.unique (.exhausted hskips)
    | stuck _ hother hmoves =>
      cases hmunches.unique hother
      exact ⟨later, rfl, hmoves⟩
    | failed hfailed => simp [hfailure] at hfailed

/-- With skipped text ahead and nothing else, the source ends. -/
theorem nextToken_of_skips {s : Scanner a} (hfailure : s.failure = none) (hskips : a.Skips s.rest) :
    ∃ later, s.nextToken = (.ok none, later) ∧ s.MovesTo later s.rest.length s.lexicon none := by
  cases hnext : s.nextToken with
  | mk answer later =>
    cases moves_of_nextToken hnext with
    | token _ hmunch _ => cases hmunch.unique (.exhausted hskips)
    | ended _ _ hmoves => exact ⟨later, rfl, hmoves⟩
    | stuck _ hmunch _ => cases hmunch.unique (.exhausted hskips)
    | failed hfailed => simp [hfailure] at hfailed

/-- With no bytes ahead, a scanner that has not failed answers that the source has ended. -/
theorem nextToken_of_rest_nil {s : Scanner a} (hfailure : s.failure = none) (hrest : s.rest = []) :
    s.nextToken = (.ok none, s) := by
  have hskips : a.Skips s.rest := by
    rw [hrest]
    rfl
  obtain ⟨later, hnext, hmoves⟩ := nextToken_of_skips hfailure hskips
  rw [hrest, List.length_nil, ← hfailure] at hmoves
  rw [hnext, hmoves.eq_self]

/-- At the end of the source, all bytes lie behind the scanner, and it has not failed. -/
theorem rest_of_end {s later : Scanner a} (h : s.nextToken = (.ok none, later)) :
    later.rest = [] ∧ later.failure = none := by
  cases moves_of_nextToken h with
  | ended _ _ hmoves =>
    have hlength := s.length_rest
    have hle := s.position_le
    refine ⟨?_, hmoves.failure_eq⟩
    rw [later.rest_eq, hmoves.source_eq, hmoves.position_eq, List.drop_eq_nil_iff]
    omega

/-- A scanner that has answered that the source has ended stands still. -/
theorem nextToken_again {s later : Scanner a} (h : s.nextToken = (.ok none, later)) :
    later.nextToken = (.ok none, later) :=
  nextToken_of_rest_nil (rest_of_end h).2 (rest_of_end h).1

/-- What a scanner answers to repeated requests for tokens: some tokens, and then that the source
has ended or that the scan has failed. -/
inductive Yields : Scanner a → List Token → Option LexicalError → Scanner a → Prop
  /-- The source has ended. -/
  | ended {s final : Scanner a} (h : s.nextToken = (.ok none, final)) : Yields s [] none final
  /-- The scan has failed. -/
  | failed {s final : Scanner a} {e : LexicalError} (h : s.nextToken = (.error e, final)) :
      Yields s [] (some e) final
  /-- There is a token, and the requests go on after it. -/
  | token {s later final : Scanner a} {token : Token} {tokens : List Token}
      {error : Option LexicalError} (h : s.nextToken = (.ok (some token), later))
      (hrest : Yields later tokens error final) : Yields s (token :: tokens) error final

/-- Requests for tokens come to an end, whatever the scanner. -/
theorem exists_yields (s : Scanner a) : ∃ tokens error final, s.Yields tokens error final := by
  induction s using transcript.induct with
  | case1 s later hnext => exact ⟨[], none, later, .ended hnext⟩
  | case2 s e later hnext => exact ⟨[], some e, later, .failed hnext⟩
  | case3 s token later hnext ih =>
    obtain ⟨tokens, error, final, hyields⟩ := ih
    exact ⟨token :: tokens, error, final, .token hnext hyields⟩

/-- The scanner after so many requests for items. -/
def afterItems (s : Scanner a) : Nat → Scanner a
  | 0 => s
  | count + 1 => s.next.2.afterItems count

/-- The answer to a request for an item, by its place among the requests. -/
def item? (s : Scanner a) (place : Nat) : Option (Except LexicalError Token) :=
  (s.afterItems place).next.1

/-- The first item is the answer to the first request. -/
theorem item?_zero (s : Scanner a) : s.item? 0 = s.next.1 := rfl

/-- Later items are those of the scanner behind the first request. -/
theorem item?_succ (s : Scanner a) (place : Nat) : s.item? (place + 1) = s.next.2.item? place := rfl

/-- The items of a stream: its tokens, and then its failure if there is one. -/
def streamItems (tokens : List Token) (error : Option LexicalError) :
    List (Except LexicalError Token) :=
  tokens.map .ok ++ error.toList.map .error

/-- Where there is no further item and the scanner does not move, there is never one again. -/
theorem afterItems_of_still {s : Scanner a} (h : s.next = (none, s)) (count : Nat) :
    s.afterItems count = s := by
  induction count with
  | zero => rfl
  | succ count ih => rw [afterItems, h, ih]

/-- A scanner that stands still has no items. -/
theorem item?_of_still {s : Scanner a} (h : s.next = (none, s)) (place : Nat) :
    s.item? place = none := by
  rw [item?, afterItems_of_still h, h]

namespace Yields

variable {s final : Scanner a} {tokens : List Token} {error : Option LexicalError}

/-- A scanner has one stream. -/
theorem unique (h : s.Yields tokens error final) {otherTokens : List Token}
    {otherError : Option LexicalError} {otherFinal : Scanner a}
    (hother : s.Yields otherTokens otherError otherFinal) :
    tokens = otherTokens ∧ error = otherError ∧ final = otherFinal := by
  induction h generalizing otherTokens otherError otherFinal with
  | ended hnext =>
    cases hother with
    | ended hnext' | failed hnext' | token hnext' _ => simp_all
  | failed hnext =>
    cases hother with
    | ended hnext' | failed hnext' | token hnext' _ => simp_all
  | token hnext _ ih =>
    cases hother with
    | ended hnext' | failed hnext' => simp_all
    | token hnext' hrest' =>
      obtain ⟨htoken, rfl⟩ := Prod.mk.inj (hnext.symm.trans hnext')
      obtain ⟨rfl, rfl, rfl⟩ := ih hrest'
      simp_all

/-- The lexicon grows at its end only. -/
theorem lexicon_extends (h : s.Yields tokens error final) : final.lexicon.Extends s.lexicon := by
  induction h with
  | ended hnext => exact (moves_of_nextToken hnext).extends
  | failed hnext => exact (moves_of_nextToken hnext).extends
  | token hnext _ ih => exact ih.trans (moves_of_nextToken hnext).extends

/-- The transcript keeps the tokens of the stream, its end and the lexicon behind it. -/
theorem transcript_eq (h : s.Yields tokens error final) :
    s.transcript = ⟨tokens, final.lexicon, error⟩ := by
  induction h with
  | ended hnext => exact transcript_of_end hnext
  | failed hnext => exact transcript_of_error hnext
  | token hnext _ ih => rw [transcript_of_token hnext, ih]

/-- After the stream there are no further items, and the scanner stands still. -/
theorem next_final (h : s.Yields tokens error final) : final.next = (none, final) := by
  induction h with
  | ended hnext => exact next_of_nextToken (rest_of_end hnext).2 (nextToken_again hnext)
  | failed hnext => exact next_of_failure (failure_of_error hnext)
  | token _ _ ih => exact ih

/-- The items are those of the stream, one after the other, and then there are none. -/
theorem item?_eq (h : s.Yields tokens error final) (hfailure : s.failure = none) (place : Nat) :
    s.item? place = (streamItems tokens error)[place]? := by
  induction h generalizing place with
  | @ended s final hnext =>
    have hitem : s.next = (none, final) := next_of_nextToken hfailure hnext
    cases place with
    | zero =>
      rw [item?_zero, hitem]
      rfl
    | succ place =>
      rw [item?_succ, hitem, item?_of_still (Yields.ended hnext).next_final]
      rfl
  | @failed s final e hnext =>
    have hitem : s.next = (some (.error e), final) := next_of_nextToken hfailure hnext
    cases place with
    | zero =>
      rw [item?_zero, hitem]
      rfl
    | succ place =>
      rw [item?_succ, hitem, item?_of_still (Yields.failed hnext).next_final]
      rfl
  | @token s later final token tokens error hnext _ ih =>
    have hitem : s.next = (some (.ok token), later) := next_of_nextToken hfailure hnext
    cases place with
    | zero =>
      rw [item?_zero, hitem]
      rfl
    | succ place =>
      rw [item?_succ, hitem, ih (failure_of_token hnext)]
      rfl

/-- Behind as many requests as there are tokens, and one more, the stream has come to its end. -/
theorem afterItems_eq (h : s.Yields tokens error final) (hfailure : s.failure = none) {count : Nat}
    (hcount : tokens.length < count) : s.afterItems count = final := by
  induction h generalizing count with
  | @ended s final hnext =>
    have hitem : s.next = (none, final) := next_of_nextToken hfailure hnext
    obtain ⟨count, rfl⟩ := Nat.exists_eq_add_of_lt hcount
    rw [afterItems, hitem, afterItems_of_still (Yields.ended hnext).next_final]
  | @failed s final e hnext =>
    have hitem : s.next = (some (.error e), final) := next_of_nextToken hfailure hnext
    obtain ⟨count, rfl⟩ := Nat.exists_eq_add_of_lt hcount
    rw [afterItems, hitem, afterItems_of_still (Yields.failed hnext).next_final]
  | @token s later final token tokens error hnext _ ih =>
    have hitem : s.next = (some (.ok token), later) := next_of_nextToken hfailure hnext
    cases count with
    | zero => omega
    | succ count =>
      rw [List.length_cons] at hcount
      rw [afterItems, hitem]
      exact ih (failure_of_token hnext) (by omega)

/-- All items at once are the tokens of the stream, or its failure. -/
theorem tokenize_eq (h : s.Yields tokens error final) (hfailure : s.failure = none) :
    s.tokenize = (error.elim (.ok tokens) .error, final) := by
  induction h with
  | ended hnext => exact tokenize_of_none (next_of_nextToken hfailure hnext)
  | failed hnext => exact tokenize_of_error (next_of_nextToken hfailure hnext)
  | @token s later final token tokens error hnext _ ih =>
    rw [tokenize_of_token (next_of_nextToken hfailure hnext), ih (failure_of_token hnext)]
    cases error <;> rfl

end Yields

end TableLexer.Scanner
