import TableLexer.Proofs.Lexicon.Numbering
import TableLexer.Proofs.Scanner.Stream

/-!
# The words of a scan

What a scan reads off its source does not depend on its lexicon: the lexemes with their categories
follow from the bytes ahead, one longest match after the other, and so does the place where the scan
fails. The lexicon only gives numbers to the lexemes. So a transcript falls into two parts that can
be looked at one without the other: the reading of the bytes ahead, and the numbers of its words.
-/

namespace TableLexer

/-- A lexeme with its category, reserved words taken into account. -/
structure Word where
  /-- The category of the lexeme. -/
  category : Category
  /-- The bytes of the lexeme. -/
  bytes : List UInt8
  deriving DecidableEq

/-- The text of a word. -/
def Word.text (word : Word) : String := lexemeText word.bytes

/-- The word of a lexeme, given the category of the state that accepts it. -/
def Word.ofLexeme (category : Category) (bytes : List UInt8) : Word :=
  ⟨category.resolve (lexemeText bytes), bytes⟩

/-- What a scan reads off some bytes. -/
structure Reading where
  /-- The words in their order. -/
  words : List Word
  /-- How many bytes lie before the place where the automaton gets stuck, if it does. -/
  stuck : Option Nat

/-- The transcript of a reading, for a scanner with a place and a lexicon: the words are numbered
one after the other. -/
def Reading.transcript (reading : Reading) (place : Nat) (lexicon : Lexicon) : Transcript where
  tokens := List.zipWith Token.mk (lexicon.internAll (reading.words.map Word.text)).1
    (reading.words.map Word.category)
  lexicon := (lexicon.internAll (reading.words.map Word.text)).2
  error := reading.stuck.map fun read => ⟨place + read⟩

/-- Whether the tokens of a transcript are words, by their categories and by the texts of their
numbers. -/
def Transcript.Spells (transcript : Transcript) (words : List Word) : Prop :=
  transcript.tokens.map (fun token => (token.category, transcript.lexeme? token)) =
    words.map fun word => (word.category, some word.text)

/-- Different bytes are different characters. -/
theorem ofUInt8_injective : Function.Injective Char.ofUInt8 := by
  intro b c h
  have hval : b.toUInt32 = c.toUInt32 := congrArg Char.val h
  have hnat := congrArg UInt32.toNat hval
  rw [UInt8.toNat_toUInt32, UInt8.toNat_toUInt32] at hnat
  exact UInt8.toNat_inj.mp hnat

/-- Different bytes have different texts. -/
theorem lexemeText_injective : Function.Injective lexemeText := by
  intro left right h
  exact ofUInt8_injective.list_map (String.ofList_injective h)

/-- The bytes of a span of a source. -/
def Span.bytes (source : List UInt8) (span : Span) : List UInt8 :=
  source.extract span.start span.stop

namespace Automaton

variable {a : Automaton}

/-- Reads some bytes: the longest match at the front is a word, and the bytes behind it are read in
the same way. -/
def reading (a : Automaton) (input : List UInt8) : Reading :=
  match _hmunch : a.munch input with
  | .exhausted => ⟨[], none⟩
  | .stuck read => ⟨[], some read⟩
  | .lexeme start stop category =>
    let remaining := a.reading (input.drop stop)
    ⟨.ofLexeme category (input.extract start stop) :: remaining.words,
      remaining.stuck.map (stop + ·)⟩
termination_by input.length
decreasing_by
  have hbounds := munch_lexeme _hmunch
  rw [List.length_drop]
  omega

/-- Nothing is read off bytes that end without a word. -/
theorem reading_of_exhausted {input : List UInt8} (h : a.munch input = .exhausted) :
    a.reading input = ⟨[], none⟩ := by
  rw [reading]
  split <;> simp_all

/-- No word is read off bytes at which the match is stuck. -/
theorem reading_of_stuck {input : List UInt8} {read : Nat} (h : a.munch input = .stuck read) :
    a.reading input = ⟨[], some read⟩ := by
  rw [reading]
  split <;> simp_all

/-- The first match is the first word, and the others are read off the bytes behind it. -/
theorem reading_of_lexeme {input : List UInt8} {start stop : Nat} {category : Category}
    (h : a.munch input = .lexeme start stop category) :
    a.reading input =
      ⟨.ofLexeme category (input.extract start stop) :: (a.reading (input.drop stop)).words,
        (a.reading (input.drop stop)).stuck.map (stop + ·)⟩ := by
  rw [reading]
  split <;> simp_all

/-- The words that are read behind a place of a source are the bytes of spans that follow one
another from there on, and unless the automaton gets stuck, there is skipped text behind them. -/
theorem reading_tiles_skips (a : Automaton) (source : List UInt8) {place : Nat}
    (hplace : place ≤ source.length) :
    ∃ spans last, a.Tiles source place spans last ∧
      spans.map (Span.bytes source) = (a.reading (source.drop place)).words.map Word.bytes ∧
      ((a.reading (source.drop place)).stuck = none → a.Skips (source.drop last)) := by
  -- the bytes behind the place, from the front of which the words are cut
  generalize hinput : source.drop place = input
  induction input using reading.induct a generalizing place with
  | case1 input hmunch =>
    rw [reading_of_exhausted hmunch]
    refine ⟨[], place, .nil place, rfl, fun _ => ?_⟩
    rw [hinput]
    cases munch_eq_iff.mp hmunch with
    | exhausted hskips => exact hskips
  | case2 input read hmunch =>
    rw [reading_of_stuck hmunch]
    exact ⟨[], place, .nil place, rfl, by simp⟩
  | case3 input start stop category hmunch ih =>
    subst hinput
    have hspan := (munch_eq_iff.mp hmunch).spanFrom hplace
    obtain ⟨spans, last, htiles, hbytes, hskips⟩ := ih hspan.stop_le List.drop_drop.symm
    rw [reading_of_lexeme hmunch]
    refine ⟨_ :: spans, last, .cons hspan htiles, ?_, ?_⟩
    · rw [List.map_cons, List.map_cons, hbytes]
      congr 1
      simp only [Span.bytes, Word.ofLexeme, List.extract_eq_take_drop, List.drop_drop]
      congr 1
      omega
    · rw [Option.map_eq_none_iff]
      exact hskips

/-- The words that are read off a source are the bytes of spans that tile it. -/
theorem reading_tiles (a : Automaton) (source : List UInt8) {place : Nat}
    (hplace : place ≤ source.length) :
    ∃ spans last, a.Tiles source place spans last ∧
      spans.map (Span.bytes source) = (a.reading (source.drop place)).words.map Word.bytes := by
  obtain ⟨spans, last, htiles, hbytes, -⟩ := a.reading_tiles_skips source hplace
  exact ⟨spans, last, htiles, hbytes⟩

end Automaton

namespace Scanner

variable {a : Automaton}

/-- The bytes that a scanner moves over are taken off the rest. -/
theorem MovesTo.rest_eq {s later : Scanner a} {count : Nat} {lexicon : Lexicon}
    {failure : Option LexicalError} (h : s.MovesTo later count lexicon failure) :
    later.rest = s.rest.drop count := by
  rw [later.rest_eq, h.source_eq, h.position_eq, s.rest_eq, List.drop_drop]

/-- The text between two places ahead is that of the bytes between them. -/
theorem textAhead_eq (s : Scanner a) (start stop : Nat) :
    s.textAhead start stop = lexemeText (s.rest.extract start stop) := by
  rw [← lexemeText_rest, List.extract_eq_take_drop, List.drop_take]

/-- The transcript of what is left of a scan is the reading of the bytes ahead, with its words
numbered by the lexicon. -/
theorem transcript_eq_reading (s : Scanner a) (hfailure : s.failure = none) :
    s.transcript = (a.reading s.rest).transcript s.position s.lexicon := by
  induction s using transcript.induct with
  | case1 s later hnext =>
    rw [transcript_of_end hnext]
    cases moves_of_nextToken hnext with
    | ended _ hskips hmoves =>
      rw [Automaton.reading_of_exhausted (Automaton.munch_eq_iff.mpr (.exhausted hskips)),
        hmoves.lexicon_eq]
      rfl
  | case2 s e later hnext =>
    rw [transcript_of_error hnext]
    cases moves_of_nextToken hnext with
    | stuck _ hmunch hmoves =>
      rw [Automaton.reading_of_stuck (Automaton.munch_eq_iff.mpr hmunch), hmoves.lexicon_eq]
      rfl
    | failed hfailed => simp [hfailure] at hfailed
  | case3 s token later hnext ih =>
    rw [transcript_of_token hnext, ih (failure_of_token hnext)]
    cases moves_of_nextToken hnext with
    | token _ hmunch hmoves =>
      rw [Automaton.reading_of_lexeme (Automaton.munch_eq_iff.mpr hmunch), hmoves.rest_eq,
        hmoves.position_eq, hmoves.lexicon_eq, textAhead_eq]
      simp only [Reading.transcript, List.map_cons, Lexicon.internAll_cons, List.zipWith_cons_cons,
        Option.map_map, Word.text, Word.ofLexeme]
      congr 2
      funext read
      simp only [Function.comp_apply, Nat.add_assoc]

end Scanner

namespace Transcript

variable {transcript : Transcript} {words : List Word}

/-- A token has the category and the text of its word. -/
theorem Spells.of_mem (h : transcript.Spells words) {token : Token} {word : Word}
    (hmem : (token, word) ∈ transcript.tokens.zip words) :
    token.category = word.category ∧ transcript.lexeme? token = some word.text := by
  obtain ⟨place, hplace⟩ := List.mem_iff_getElem?.mp hmem
  obtain ⟨htoken, hword⟩ := List.getElem?_zip_eq_some.mp hplace
  have hpair := congrArg (·[place]?) h
  simp only [List.getElem?_map, htoken, hword, Option.map_some, Option.some.injEq,
    Prod.mk.injEq] at hpair
  exact hpair

/-- Tokens have the same number if and only if their words have the same bytes. -/
theorem Spells.id_eq_iff (h : transcript.Spells words) {token other : Token} {word another : Word}
    (hmem : (token, word) ∈ transcript.tokens.zip words)
    (hother : (other, another) ∈ transcript.tokens.zip words) :
    token.id = other.id ↔ word.bytes = another.bytes := by
  have htext : transcript.lexicon.text? token.id = some word.text := (h.of_mem hmem).2
  have htext' : transcript.lexicon.text? other.id = some another.text := (h.of_mem hother).2
  constructor
  · intro hid
    rw [hid, htext'] at htext
    exact (lexemeText_injective (Option.some.inj htext)).symm
  · intro hbytes
    have hsame : word.text = another.text := congrArg lexemeText hbytes
    rw [hsame] at htext
    have hplace := Lexicon.idxOf_eq_of_text? htext
    rw [Lexicon.idxOf_eq_of_text? htext'] at hplace
    exact (UInt32.toNat_inj.mp hplace).symm

end Transcript

namespace Reading

variable {reading : Reading} {place : Nat} {lexicon : Lexicon}

/-- The numbers of the tokens are those that the texts of the words get. -/
theorem map_id_transcript (reading : Reading) (place : Nat) (lexicon : Lexicon) :
    (reading.transcript place lexicon).tokens.map Token.id =
      (lexicon.internAll (reading.words.map Word.text)).1 := by
  have hlength := lexicon.length_internAll (reading.words.map Word.text)
  rw [List.length_map] at hlength
  rw [transcript, List.map_zipWith]
  apply List.ext_getElem
  · simp [hlength]
  · simp

/-- While numbers last, the tokens of a transcript are the words that were read. -/
theorem spells_transcript
    (hsize : (reading.transcript place lexicon).lexicon.size ≤ UInt32.size) :
    (reading.transcript place lexicon).Spells reading.words := by
  have htexts := Lexicon.map_text?_internAll hsize
  simp only [Transcript.Spells, transcript, Transcript.lexeme?, List.map_zipWith]
  calc List.zipWith (fun id category => (category,
        (lexicon.internAll (reading.words.map Word.text)).2.text? id))
        (lexicon.internAll (reading.words.map Word.text)).1 (reading.words.map Word.category)
      = List.zipWith (fun text category => (category, text))
          ((lexicon.internAll (reading.words.map Word.text)).1.map
            (lexicon.internAll (reading.words.map Word.text)).2.text?)
          (reading.words.map Word.category) := by rw [List.zipWith_map_left]
    _ = reading.words.map fun word => (word.category, some word.text) := by
      rw [htexts, List.map_map, List.zipWith_map, List.zipWith_self]
      rfl

end Reading

namespace Automaton

/-- The texts of the words of a source. -/
def lexemes (a : Automaton) (source : List UInt8) : List String :=
  (a.reading source).words.map Word.text

/-- The transcript of a source is its reading, with the words numbered from zero on. -/
theorem scan_eq_reading (a : Automaton) (source : List UInt8) :
    a.scan source = (a.reading source).transcript 0 Lexicon.empty :=
  (Scanner.ofSource a source).transcript_eq_reading rfl

/-- The lexicon of a scan has the distinct lexemes in the order of their first occurrence. -/
theorem texts_scan (a : Automaton) (source : List UInt8) :
    (a.scan source).lexicon.texts.toList = (a.lexemes source).eraseDups := by
  rw [scan_eq_reading]
  exact Lexicon.texts_internAll_empty _

/-- A scan gives a number to every lexeme once. -/
theorem size_scan (a : Automaton) (source : List UInt8) :
    (a.scan source).lexicon.size = (a.lexemes source).eraseDups.length := by
  rw [← texts_scan, Array.length_toList, Lexicon.size]

/-- While numbers last, the tokens of a scan are the words of the source. -/
theorem spells_scan {a : Automaton} {source : List UInt8}
    (hsize : (a.scan source).lexicon.size ≤ UInt32.size) :
    (a.scan source).Spells (a.reading source).words := by
  rw [scan_eq_reading] at hsize ⊢
  exact Reading.spells_transcript hsize

/-- The lexemes of a scan are the texts of spans of the source with skipped text between them, and
its lexicon lists them once each, in the order of their first occurrence, and nothing else. All
items at once leave the same lexicon, also if a failure loses the tokens. While numbers last, they
are given from zero on, the number of a token is the place of its lexeme in the list, and so it is
the same for two tokens if and only if the bytes of their lexemes are. -/
theorem scan_numbers_lexemes (a : Automaton) (source : List UInt8) :
    (∃ spans last, a.Tiles source 0 spans last ∧
      spans.map (Span.bytes source) = (a.reading source).words.map Word.bytes) ∧
    (a.scan source).lexicon.texts.toList = (a.lexemes source).eraseDups ∧
    ((Scanner.ofSource a source).tokenize.1 =
        (a.scan source).error.elim (.ok (a.scan source).tokens) .error ∧
      (Scanner.ofSource a source).tokenize.2.lexicon = (a.scan source).lexicon) ∧
    ((a.lexemes source).eraseDups.length ≤ UInt32.size →
      (a.scan source).Spells (a.reading source).words ∧
      (a.scan source).lexicon.entries.map (fun entry => (entry.1.toNat, entry.2)) =
        (a.lexemes source).eraseDups.zipIdx.map Prod.swap ∧
      (a.scan source).tokens.map (fun token => token.id.toNat) =
        (a.lexemes source).map (a.lexemes source).eraseDups.idxOf ∧
      ∀ first ∈ (a.scan source).tokens.zip (a.reading source).words,
        ∀ second ∈ (a.scan source).tokens.zip (a.reading source).words,
          first.1.id = second.1.id ↔ first.2.bytes = second.2.bytes) := by
  refine ⟨a.reading_tiles source (Nat.zero_le _), a.texts_scan source, ?_, ?_⟩
  · obtain ⟨tokens, error, final, hyields⟩ := (Scanner.ofSource a source).exists_yields
    have htranscript : a.scan source = ⟨tokens, final.lexicon, error⟩ := hyields.transcript_eq
    rw [htranscript, hyields.tokenize_eq rfl]
    exact ⟨rfl, rfl⟩
  · intro hsize
    rw [← size_scan] at hsize
    have hspells := spells_scan hsize
    have hentries := Lexicon.map_toNat_entries hsize
    rw [texts_scan] at hentries
    have hids : (a.scan source).tokens.map (fun token => token.id.toNat) =
        (a.lexemes source).map (a.lexemes source).eraseDups.idxOf := by
      rw [← texts_scan]
      rw [scan_eq_reading] at hsize ⊢
      have hnumbers := Lexicon.map_toNat_internAll hsize
      rw [← Reading.map_id_transcript, List.map_map] at hnumbers
      exact hnumbers
    exact ⟨hspells, hentries, hids, fun _ hfirst _ hsecond => hspells.id_eq_iff hfirst hsecond⟩

/-- A number, another one, and the first again before a point that is given back. -/
def repeatedText : List UInt8 := [0x31, 0x31, 0x20, 0x31, 0x20, 0x31, 0x31, 0x2E]

/-- The numbers are two lexemes, and the tokens of equal ones have the same number. The point is in
no lexeme. -/
theorem scan_numbers_lexemes_numerals :
    (numerals.lexemes repeatedText).eraseDups.length ≤ UInt32.size ∧
      (numerals.scan repeatedText).lexicon.texts.toList = ["11", "1"] ∧
      (numerals.scan repeatedText).tokens.map (fun token => token.id.toNat) = [0, 1, 0] ∧
      (Scanner.ofSource numerals repeatedText).tokenize.2.lexicon =
        (numerals.scan repeatedText).lexicon := by
  have hlexemes : numerals.lexemes repeatedText = ["11", "1", "11"] := by decide +kernel
  have hsize : (numerals.lexemes repeatedText).eraseDups.length ≤ UInt32.size := by
    rw [hlexemes]
    decide
  obtain ⟨-, htexts, ⟨-, hlexicon⟩, hnumbers⟩ := scan_numbers_lexemes numerals repeatedText
  obtain ⟨-, -, hids, -⟩ := hnumbers hsize
  rw [hlexemes] at htexts hids
  exact ⟨hsize, htexts, hids, hlexicon⟩

end Automaton

end TableLexer
