import TableLexer.Proofs.MiniJava.Phases
import TableLexer.Proofs.Scanner.Lifecycle
import TableLexer.Proofs.Scanner.Words

/-!
# What the answer for all items says

A scanner that has not failed tells by the answer for all items whether its source can be scanned to
the end: there is an answer without a failure only if the source has ended behind the last token. A
scanner that has failed has no items left, so it answers that there are none, and that answer does
not tell a source that has ended from one in which the scan has stopped.
-/

namespace TableLexer.Scanner

variable {a : Automaton}

/-- After its stream, a scanner answers the end of the stream again. -/
theorem Yields.nextToken_final {s final : Scanner a} {tokens : List Token}
    {error : Option LexicalError} (h : s.Yields tokens error final) :
    final.nextToken = (error.elim (.ok none) .error, final) := by
  induction h with
  | ended hnext => exact nextToken_again hnext
  | failed hnext => exact nextToken_of_failure (failure_of_error hnext)
  | token _ _ ih => exact ih

/-- A scanner that answers the end of the source stands there. -/
theorem position_of_end {s later : Scanner a} (h : s.nextToken = (.ok none, later)) :
    later.position = later.source.length := by
  rw [← later.atEnd_iff, atEnd, (rest_of_end h).1]
  rfl

/-- A scanner that has not failed has a failure ahead and answers it for all items, or it answers
the tokens ahead and comes to the end of the source. -/
theorem tokenize_cases {s : Scanner a} (hfailure : s.failure = none) :
    (∃ e, s.transcript.error = some e ∧ s.tokenize.1 = .error e ∧ s.tokenize.2.Repeats e) ∨
      (s.transcript.error = none ∧ s.tokenize.1 = .ok s.transcript.tokens ∧
        s.tokenize.2.position = s.source.length ∧
        s.tokenize.2.nextToken = (.ok none, s.tokenize.2)) := by
  obtain ⟨tokens, error, final, hyields⟩ := s.exists_yields
  have htokenize := hyields.tokenize_eq hfailure
  have hfinal := hyields.nextToken_final
  have hsource : s.tokenize.2.source = s.source := s.reaches_tokenize.precedes.source_eq
  rw [htokenize] at hsource
  rw [htokenize, hyields.transcript_eq]
  cases error with
  | some e => exact Or.inl ⟨e, rfl, rfl, repeats_of_failure (failure_of_error hfinal)⟩
  | none => exact Or.inr ⟨rfl, rfl, hsource ▸ position_of_end hfinal, hfinal⟩

/-- Whatever has been asked of a scanner before: if it has not failed, then it answers all items
without a failure only if it comes to the end of the source, where there are no further tokens, and
it answers the failure that is ahead if there is one, and repeats it from then on. If it has failed,
then it answers that there are no items, does not move, and goes on to answer its failure to every
request for a token. -/
theorem tokenize_of_performAll (a : Automaton) (source : List UInt8) (operations : List Operation)
    (s : Scanner a) (hs : (ofSource a source).performAll operations = s) :
    (s.failure = none →
      (∀ tokens, s.tokenize.1 = .ok tokens →
        s.tokenize.2.position = source.length ∧
          s.tokenize.2.nextToken = (.ok none, s.tokenize.2)) ∧
      ∀ e, s.transcript.error = some e → s.tokenize.1 = .error e ∧ s.tokenize.2.Repeats e) ∧
    ∀ e, s.failure = some e →
      s.transcript.error = some e ∧ s.tokenize = (.ok [], s) ∧ s.nextToken = (.error e, s) := by
  have hsource : s.source = source := by
    rw [← hs]
    exact ((ofSource a source).precedes_performAll operations).source_eq
  constructor
  · intro hfailure
    rcases tokenize_cases hfailure with
      ⟨e, herror, hanswer, hrepeats⟩ | ⟨hnone, -, hposition, hnext⟩
    · constructor
      · intro tokens htokens
        rw [hanswer] at htokens
        cases htokens
      · intro e' herror'
        obtain rfl := Option.some.inj (herror.symm.trans herror')
        exact ⟨hanswer, hrepeats⟩
    · rw [hsource] at hposition
      refine ⟨fun tokens _ => ⟨hposition, hnext⟩, fun e herror => ?_⟩
      rw [hnone] at herror
      cases herror
  · intro e hfailure
    have hrepeats := repeats_of_failure hfailure
    refine ⟨?_, hrepeats.tokenize_eq, hrepeats.nextToken_eq⟩
    rw [hrepeats.transcript_eq]

/-- A number is scanned to the end of its source. A point that no number is before is a failure, and
the answer for all items is that failure, but after a request for a token it is that there are no
items. -/
theorem tokenize_of_performAll_numerals :
    (∃ tokens, (ofSource Automaton.numerals [0x31]).tokenize.1 = .ok tokens ∧
      (ofSource Automaton.numerals [0x31]).tokenize.2.position = 1) ∧
    (ofSource Automaton.numerals [0x2E]).tokenize.1 = .error ⟨0⟩ ∧
    ∃ s, (ofSource Automaton.numerals [0x2E]).performAll [.nextToken] = s ∧
      s.failure = some ⟨0⟩ ∧ s.tokenize = (.ok [], s) ∧ s.nextToken = (.error ⟨0⟩, s) := by
  have hnumber : (Automaton.numerals.reading [0x31]).stuck = none := by decide +kernel
  have hpoint : Automaton.numerals.munch [0x2E] = .stuck 0 := by decide +kernel
  obtain ⟨later, hnext, -⟩ :=
    nextToken_of_stuck (s := ofSource Automaton.numerals [0x2E]) rfl hpoint
  have hfailure : later.failure = some ⟨0⟩ := failure_of_error hnext
  have hlater : (ofSource Automaton.numerals [0x2E]).performAll [.nextToken] = later :=
    congrArg Prod.snd hnext
  refine ⟨?_, ?_, later, hlater, hfailure, ?_⟩
  · have hahead : (ofSource Automaton.numerals [0x31]).transcript.error = none := by
      rw [transcript_eq_reading _ rfl]
      exact congrArg (Option.map _) hnumber
    rcases tokenize_cases (s := ofSource Automaton.numerals [0x31]) rfl with
      ⟨e, herror, -⟩ | ⟨-, htokens, -⟩
    · rw [hahead] at herror
      cases herror
    · obtain ⟨hsound, -⟩ := tokenize_of_performAll Automaton.numerals [0x31] [] _ rfl
      exact ⟨_, htokens, ((hsound rfl).1 _ htokens).1⟩
  · have hahead : (ofSource Automaton.numerals [0x2E]).transcript.error = some ⟨0⟩ := by
      rw [transcript_of_error hnext]
      rfl
    obtain ⟨hsound, -⟩ := tokenize_of_performAll Automaton.numerals [0x2E] [] _ rfl
    exact ((hsound rfl).2 ⟨0⟩ hahead).1
  · obtain ⟨-, hfailed⟩ := tokenize_of_performAll Automaton.numerals [0x2E] [.nextToken] _ hlater
    exact (hfailed ⟨0⟩ hfailure).2

/-- A source that the small Java cannot scan: the request for a token is answered with the failure,
the one for all items after it with no items and no failure, and the next one for a token with the
failure again, in front of the byte that nothing begins with. -/
theorem tokenize_forgets_failure :
    ∃ a, MiniJava.automaton = .ok a ∧
      ∃ s, (ofSource a [0x40]).performAll [.nextToken] = s ∧
        s.tokenize = (.ok [], s) ∧ s.position = 0 ∧ s.source = [0x40] ∧
        s.nextToken = (.error ⟨0⟩, s) := by
  obtain ⟨a, ha⟩ := MiniJava.exists_automaton
  have hedge : a.next? State.start 0x40 = none := MiniJava.next?_state ha .start 0x40
  have hstuck : a.munch [0x40] = .stuck 0 := by
    simp [Automaton.munch, Attempt.run, Attempt.initial, Attempt.outcome, hedge]
  obtain ⟨later, hnext, hmoves⟩ := nextToken_of_stuck (s := ofSource a [0x40]) rfl hstuck
  have hrepeats := repeats_of_failure (failure_of_error hnext)
  exact ⟨a, ha, later, congrArg Prod.snd hnext, hrepeats.tokenize_eq, hmoves.position_eq,
    hmoves.source_eq, hrepeats.nextToken_eq⟩

end TableLexer.Scanner
