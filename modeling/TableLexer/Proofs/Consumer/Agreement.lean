import TableLexer.Consumer.Recorder
import TableLexer.Proofs.Consumer.Calls

/-!
# All consumers of a scan agree

There are several loops over a scan: the transcript, the items one by one, all items at once, and
the feeding of a consumer. Each of them stops in its own way and leaves its own state behind. They
agree on the stream of the scan: on its tokens, its failure, and the scanner behind it. A consumer
that refuses nothing is given every token of the stream with its lexeme, and then the failure.
-/

namespace TableLexer

/-- A recorder with room for all tokens, which takes failures, refuses nothing. -/
theorem Consumer.obliging_recorder : (recorder none false).Obliging where
  accept := fun _ _ _ => ⟨_, rfl⟩
  error := fun _ _ => ⟨_, rfl⟩

namespace Scanner

variable {a : Automaton}

/-- The calls for a stream: its tokens with their lexemes, and then its failure if there is one. -/
def streamCalls (tokens : List Token) (lexemes : List String) (error : Option LexicalError) :
    List Call :=
  List.zipWith .accept tokens lexemes ++ error.toList.map .error

namespace Yields

variable {s final : Scanner a} {tokens : List Token} {error : Option LexicalError}

/-- At the end of the stream, each of its tokens has a lexeme. -/
theorem exists_lexemes (h : s.Yields tokens error final) :
    ∃ lexemes : List String, tokens.map (fun token => final.lexeme? token.id) =
      lexemes.map some := by
  induction h with
  | ended => exact ⟨[], rfl⟩
  | failed => exact ⟨[], rfl⟩
  | token hnext hrest ih =>
    obtain ⟨lexeme, hlexeme⟩ := Option.isSome_iff_exists.mp (lexeme?_isSome hnext)
    obtain ⟨lexemes, hlexemes⟩ := ih
    refine ⟨lexeme :: lexemes, ?_⟩
    rw [List.map_cons, List.map_cons, hlexemes]
    exact congrArg (· :: _) (hrest.lexicon_extends.text? hlexeme)

/-- A consumer that refuses nothing is fed with the whole stream. -/
theorem feedFrom_obliging (h : s.Yields tokens error final) {lexemes : List String}
    (hlexemes : tokens.map (fun token => final.lexeme? token.id) = lexemes.map some)
    {σ ε : Type} {consumer : Consumer σ ε} (hobliging : consumer.Obliging) (given : Nat)
    (state : σ) :
    s.calls consumer state = streamCalls tokens lexemes error ∧
      (s.feedFrom consumer given state).report = .ok ⟨given + tokens.length, error⟩ ∧
      (s.feedFrom consumer given state).scanner = final := by
  induction h generalizing lexemes given state with
  | ended hnext =>
    rw [calls_of_end hnext, feedFrom_of_end hnext]
    exact ⟨by simp [streamCalls], rfl, rfl⟩
  | failed hnext =>
    obtain ⟨next, hanswer⟩ := hobliging.error _ state
    rw [calls_of_error hnext, feedFrom_of_error hnext, hanswer]
    exact ⟨by simp [streamCalls], rfl, rfl⟩
  | @token s later final token tokens error hnext hrest ih =>
    -- the lexeme at the time of the call is the one at the end of the stream
    obtain ⟨lexeme, hlexeme⟩ := Option.isSome_iff_exists.mp (lexeme?_isSome hnext)
    have hkept : final.lexeme? token.id = some lexeme := hrest.lexicon_extends.text? hlexeme
    cases lexemes with
    | nil => simp at hlexemes
    | cons first lexemes =>
      obtain ⟨hfirst, hmore⟩ := List.cons.inj hlexemes
      obtain rfl : lexeme = first := Option.some.inj (hkept.symm.trans hfirst)
      obtain ⟨next, hanswer⟩ := hobliging.accept token lexeme state
      obtain ⟨hcalls, hreport, hscanner⟩ := ih hmore (given + 1) next
      have hcount : given + 1 + tokens.length = given + (token :: tokens).length := by
        rw [List.length_cons]
        omega
      rw [calls_of_token hnext hlexeme, feedFrom_of_token hnext hlexeme, hanswer]
      exact ⟨congrArg (.accept token lexeme :: ·) hcalls, hcount ▸ hreport, hscanner⟩

/-- While numbers last, the lexemes of a stream are the texts of the spans that it is cut from. -/
theorem lexemes_eq (h : s.Yields tokens error final) (hfailure : s.failure = none)
    {lexemes : List String}
    (hlexemes : tokens.map (fun token => final.lexeme? token.id) = lexemes.map some)
    (hsize : final.lexicon.size ≤ UInt32.size) :
    ∃ spans last, a.Tiles s.source s.position spans last ∧
      lexemes = spans.map (Span.text s.source) := by
  have htranscript := h.transcript_eq
  have hsize' : s.transcript.lexicon.size ≤ UInt32.size := by
    rw [htranscript]
    exact hsize
  obtain ⟨spans, last, htiles, htexts, -⟩ := s.transcript_tiles hfailure hsize'
  rw [htranscript] at htexts
  refine ⟨spans, last, htiles, (List.map_inj_right fun _ _ => Option.some.inj).mp ?_⟩
  rw [List.map_map]
  exact hlexemes.symm.trans htexts

end Yields

/-- Of a scanner that has not failed, every loop gives the stream: the transcript has its tokens and
its failure, the items are its tokens and its failure and then none, all items at once are its
tokens unless there is a failure, and a consumer that refuses nothing is given its tokens with
their lexemes and then its failure. They all leave the lexicon, and those that leave a scanner leave
the scanner, that is behind the stream. The transcripts of many sources are those of each. -/
theorem consumers_agree (s : Scanner a) (hfailure : s.failure = none) :
    (∃ tokens error final lexemes, s.Yields tokens error final ∧
      tokens.map (fun token => final.lexeme? token.id) = lexemes.map some ∧
      (final.lexicon.size ≤ UInt32.size → ∃ spans last,
        a.Tiles s.source s.position spans last ∧ lexemes = spans.map (Span.text s.source)) ∧
      s.transcript = ⟨tokens, final.lexicon, error⟩ ∧
      (∀ place, s.item? place = (streamItems tokens error)[place]?) ∧
      (∀ count, tokens.length < count → s.afterItems count = final) ∧
      s.tokenize = (error.elim (.ok tokens) .error, final) ∧
      ∀ (σ ε : Type) (consumer : Consumer σ ε) (state : σ), consumer.Obliging →
        s.calls consumer state = streamCalls tokens lexemes error ∧
        (s.feed consumer state).report = .ok ⟨tokens.length, error⟩ ∧
        (s.feed consumer state).scanner = final) ∧
    ∀ (sources : List (List UInt8)) (place : Nat), (a.scanAll sources)[place]? =
      sources[place]?.map fun source => (ofSource a source).transcript := by
  constructor
  · obtain ⟨tokens, error, final, hyields⟩ := s.exists_yields
    obtain ⟨lexemes, hlexemes⟩ := hyields.exists_lexemes
    refine ⟨tokens, error, final, lexemes, hyields, hlexemes,
      hyields.lexemes_eq hfailure hlexemes, hyields.transcript_eq, hyields.item?_eq hfailure,
      fun _ => hyields.afterItems_eq hfailure, hyields.tokenize_eq hfailure, ?_⟩
    intro σ ε consumer state hobliging
    have hfed := hyields.feedFrom_obliging hlexemes hobliging 0 state
    rwa [Nat.zero_add] at hfed
  · intro sources place
    exact List.getElem?_map

/-- The number and a point after it are a stream of one token and a failure. -/
theorem yields_numerals :
    ∃ final, (ofSource Automaton.numerals Automaton.numeralText).Yields
      [⟨(Lexicon.empty.intern "11").1, .integerLiteral⟩] (some ⟨3⟩) final := by
  have hnumber : Automaton.numerals.munch Automaton.numeralText = .lexeme 1 3 .integerLiteral := by
    decide +kernel
  obtain ⟨later, hnext, hmoves⟩ :=
    nextToken_of_lexeme (s := ofSource Automaton.numerals Automaton.numeralText) rfl hnumber
  have hpoint : Automaton.numerals.munch later.rest = .stuck 0 := by
    rw [later.rest_eq, hmoves.source_eq, hmoves.position_eq]
    decide +kernel
  obtain ⟨final, hfinal, -⟩ := nextToken_of_stuck hmoves.failure_eq hpoint
  rw [hmoves.position_eq] at hfinal
  exact ⟨final, .token hnext (.failed hfinal)⟩

/-- A recorder is given the number, as the text of a span, and the failure at the point. -/
theorem consumers_agree_numerals :
    (ofSource Automaton.numerals Automaton.numeralText).failure = none ∧
      (Consumer.recorder none false).Obliging ∧
      ∃ span : Span,
        (ofSource Automaton.numerals Automaton.numeralText).calls (Consumer.recorder none false)
            {} =
          [.accept ⟨(Lexicon.empty.intern "11").1, .integerLiteral⟩
            (span.text Automaton.numeralText), .error ⟨3⟩] ∧
        ((ofSource Automaton.numerals Automaton.numeralText).feed
            (Consumer.recorder none false) {}).report = .ok ⟨1, some ⟨3⟩⟩ := by
  obtain ⟨⟨tokens, error, final, lexemes, hyields, hlexemes, htexts, htranscript, -, -, -, hfed⟩,
    -⟩ := consumers_agree (ofSource Automaton.numerals Automaton.numeralText) rfl
  obtain ⟨final', hyields'⟩ := yields_numerals
  obtain ⟨rfl, rfl, rfl⟩ := hyields.unique hyields'
  have hsize : final.lexicon.size ≤ UInt32.size := by
    have hle := (ofSource Automaton.numerals Automaton.numeralText).size_transcript_le
    rw [htranscript] at hle
    exact Nat.le_trans hle (by decide)
  obtain ⟨spans, -, -, rfl⟩ := htexts hsize
  have hlength : spans.length = 1 := by simpa using (congrArg List.length hlexemes).symm
  obtain ⟨span, rfl⟩ := List.length_eq_one_iff.mp hlength
  obtain ⟨hcalls, hreport, -⟩ := hfed _ _ _ {} Consumer.obliging_recorder
  exact ⟨rfl, Consumer.obliging_recorder, span, hcalls, hreport⟩

end Scanner

end TableLexer
