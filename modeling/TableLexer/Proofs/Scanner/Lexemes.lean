import Mathlib.Tactic.TFAE
import TableLexer.Proofs.Scanner.Words

/-!
# The lexemes of an automaton

Which bytes can be a lexeme does not depend on the source around them. They are the bytes over which
the automaton walks from the start state to an accepting state without coming back to the start
state: a longest match is cut out of a walk behind its last visit of the start state, and conversely
such bytes are read to their end when they stand alone, or in front of a byte that the walk has no
edge on. The category goes with the bytes, so it goes with the number of a token as well.
-/

namespace TableLexer

namespace Automaton

variable {a : Automaton} {bytes rest input : List UInt8} {category : Category}

/-- Whether bytes are a lexeme of a category, given by the state at their end: the walk over them
leaves the start state for good and ends in an accepting state. -/
structure IsLexeme (a : Automaton) (bytes : List UInt8) (category : Category) : Prop where
  /-- There is a byte. -/
  ne_nil : bytes ≠ []
  /-- The walk does not come back to the start state. -/
  leaves : ∀ place, 0 < place → place ≤ bytes.length → a.stateAt? bytes place ≠ some State.start
  /-- The walk comes to the end of the bytes, and the state there accepts. -/
  category_eq : (a.walk? State.start bytes).bind a.category? = some category

/-- Bytes are a lexeme of one category only. -/
theorem IsLexeme.unique {other : Category} (h : a.IsLexeme bytes category)
    (hother : a.IsLexeme bytes other) : category = other :=
  Option.some.inj (h.category_eq.symm.trans hother.category_eq)

/-- The category of the state behind some bytes, if the walk over them does not come back to the
start state. -/
def ending? (a : Automaton) (state : State) : List UInt8 → Option Category
  | [] => a.category? state
  | b :: rest => (a.next? state b).bind fun target =>
      if target = State.start then none else ending? a target rest

/-- Whether a walk comes back to the start state is told byte by byte. -/
theorem ending?_eq_some_iff {state : State} :
    a.ending? state bytes = some category ↔
      (∀ place, 0 < place → place ≤ bytes.length →
        a.walk? state (bytes.take place) ≠ some State.start) ∧
      (a.walk? state bytes).bind a.category? = some category := by
  induction bytes generalizing state with
  | nil =>
    rw [ending?, walk?, Option.bind_some, iff_and_self]
    intro _ place hpos hle
    rw [List.length_nil] at hle
    omega
  | cons b rest ih =>
    rw [ending?, walk?]
    cases hnext : a.next? state b with
    | none => simp
    | some target =>
      rw [Option.bind_some, Option.bind_some]
      by_cases hstart : target = State.start
      · -- the walk is back after one byte, so the right side is false
        rw [if_pos hstart]
        simp only [reduceCtorEq, false_iff, not_and]
        intro hleaves
        refine absurd ?_ (hleaves 1 Nat.one_pos (Nat.succ_pos _))
        simp [walk?, hnext, hstart]
      · -- the places behind the first byte are those of the walk from the target
        rw [if_neg hstart, ih]
        refine and_congr_left fun _ => ?_
        constructor
        · intro hleaves place hpos hle
          obtain ⟨place, rfl⟩ := Nat.exists_eq_succ_of_ne_zero (Nat.ne_of_gt hpos)
          rw [List.take_succ_cons, walk?, hnext, Option.bind_some]
          rcases Nat.eq_zero_or_pos place with rfl | hplace
          · simpa [walk?] using hstart
          · exact hleaves place hplace (Nat.succ_le_succ_iff.mp hle)
        · intro hleaves place hpos hle
          have hlater := hleaves (place + 1) (Nat.succ_pos _) (Nat.succ_le_succ hle)
          rwa [List.take_succ_cons, walk?, hnext, Option.bind_some] at hlater

/-- Lexemes are told by the walk over their bytes. -/
theorem isLexeme_iff_ending? :
    a.IsLexeme bytes category ↔ bytes ≠ [] ∧ a.ending? State.start bytes = some category := by
  rw [ending?_eq_some_iff]
  constructor
  · intro h
    exact ⟨h.ne_nil, h.leaves, h.category_eq⟩
  · rintro ⟨hne, hleaves, hcategory⟩
    exact ⟨hne, hleaves, hcategory⟩

/-- The walk up to a place does not depend on the bytes behind it. -/
theorem stateAt?_take {count place : Nat} (hle : place ≤ count) :
    a.stateAt? (input.take count) place = a.stateAt? input place := by
  rw [stateAt?, List.take_take, Nat.min_eq_left hle, stateAt?]

/-- The walk over some bytes is the same whatever follows them. -/
theorem stateAt?_append {place : Nat} (hle : place ≤ bytes.length) :
    a.stateAt? (bytes ++ rest) place = a.stateAt? bytes place := by
  rw [stateAt?, List.take_append_of_le_length hle, stateAt?]

/-- Behind a visit of the start state, the walk is that over the bytes from there on. -/
theorem stateAt?_add {start : Nat} (hstart : a.stateAt? input start = some State.start)
    (place : Nat) : a.stateAt? input (start + place) = a.stateAt? (input.drop start) place := by
  rw [stateAt?] at hstart
  rw [stateAt?, List.take_add, walk?_append, hstart, Option.bind_some, stateAt?]

/-- What the longest match cuts out of a source is a lexeme. -/
theorem Munches.isLexeme {start stop : Nat}
    (h : a.Munches input (.lexeme start stop category)) :
    a.IsLexeme (input.extract start stop) category := by
  cases h with
  | lexeme hstop hstart haccept =>
    have hlt := haccept.lt
    have hle := haccept.le
    have hend := hstop.le
    have hlength : (input.extract start stop).length = stop - start := by
      rw [List.extract_eq_take_drop, List.length_take, List.length_drop]
      omega
    have hstate : ∀ place ≤ stop - start,
        a.stateAt? (input.extract start stop) place = a.stateAt? input (start + place) := by
      intro place hplace
      rw [List.extract_eq_take_drop, stateAt?_take hplace, stateAt?_add hstart.here]
    refine ⟨List.ne_nil_of_length_pos (by omega), ?_, ?_⟩
    · intro place hpos hplace
      rw [hlength] at hplace
      rw [hstate place hplace]
      exact hstart.later (start + place) (by omega) (by omega)
    · have hhere := haccept.here
      rw [categoryAt?] at hhere
      rw [← stateAt?_length, hlength, hstate _ (Nat.le_refl _), Nat.add_sub_cancel' (by omega),
        hhere]

/-- A lexeme is the longest match where it stands in front of a byte that the state at its end has
no edge on, and where nothing is behind it. -/
theorem IsLexeme.munch_append (h : a.IsLexeme bytes category)
    (hblocked : ∀ state, a.walk? State.start bytes = some state →
      ∀ b, rest.head? = some b → a.next? state b = none) :
    a.munch (bytes ++ rest) = .lexeme 0 bytes.length category := by
  obtain ⟨state, hwalk, hcategory⟩ := Option.bind_eq_some_iff.mp h.category_eq
  have hend : a.stateAt? (bytes ++ rest) bytes.length = some state := by
    rw [stateAt?_append (Nat.le_refl _), stateAt?_length, hwalk]
  have hstop : a.StopsAt (bytes ++ rest) bytes.length := by
    refine ⟨by simp, state, hend, ?_⟩
    intro b hb
    rw [List.getElem?_append_right (Nat.le_refl _), Nat.sub_self, ← List.head?_eq_getElem?] at hb
    exact hblocked state hwalk b hb
  have hstart : a.LastStart (bytes ++ rest) bytes.length 0 := by
    refine ⟨Nat.zero_le _, rfl, ?_⟩
    intro place hpos hle
    rw [stateAt?_append hle]
    exact h.leaves place hpos hle
  have haccept : a.LastAccept (bytes ++ rest) 0 bytes.length bytes.length category := by
    refine ⟨List.length_pos_of_ne_nil h.ne_nil, Nat.le_refl _, ?_, a.noAccept_self _ _⟩
    rw [categoryAt?, hend, Option.bind_some, hcategory]
  exact munch_eq_iff.mpr (.lexeme hstop hstart haccept)

/-- A lexeme that stands alone is matched as a whole. -/
theorem IsLexeme.munch_eq (h : a.IsLexeme bytes category) :
    a.munch bytes = .lexeme 0 bytes.length category := by
  have halone : a.munch (bytes ++ []) = .lexeme 0 bytes.length category :=
    h.munch_append (by simp)
  rwa [List.append_nil] at halone

/-- Where a lexeme stands like that, it is the next word. -/
theorem IsLexeme.reading_append (h : a.IsLexeme bytes category)
    (hblocked : ∀ state, a.walk? State.start bytes = some state →
      ∀ b, rest.head? = some b → a.next? state b = none) :
    a.reading (bytes ++ rest) =
      ⟨.ofLexeme category bytes :: (a.reading rest).words,
        (a.reading rest).stuck.map (bytes.length + ·)⟩ := by
  rw [reading_of_lexeme (h.munch_append hblocked), List.extract_eq_take_drop, List.drop_zero,
    Nat.sub_zero, List.take_left, List.drop_left]

/-- Nothing is read off an empty source. -/
theorem reading_nil (a : Automaton) : a.reading [] = ⟨[], none⟩ :=
  reading_of_exhausted (munch_eq_iff.mpr (.exhausted rfl))

/-- A lexeme that stands alone is the only word. -/
theorem IsLexeme.reading_eq (h : a.IsLexeme bytes category) :
    a.reading bytes = ⟨[.ofLexeme category bytes], none⟩ := by
  rw [reading_of_lexeme h.munch_eq, List.extract_eq_take_drop, List.drop_zero, Nat.sub_zero,
    List.take_length, List.drop_length, reading_nil, Option.map_none]

/-- Every word of a source is a lexeme. -/
theorem exists_isLexeme_of_mem {word : Word} (hmem : word ∈ (a.reading input).words) :
    ∃ category, a.IsLexeme word.bytes category ∧ word = .ofLexeme category word.bytes := by
  induction input using reading.induct a with
  | case1 input hmunch => simp [reading_of_exhausted hmunch] at hmem
  | case2 input read hmunch => simp [reading_of_stuck hmunch] at hmem
  | case3 input start stop category hmunch ih =>
    rw [reading_of_lexeme hmunch, List.mem_cons] at hmem
    rcases hmem with rfl | hmem
    · exact ⟨category, (munch_eq_iff.mp hmunch).isLexeme, rfl⟩
    · exact ih hmem

/-- Words with the same bytes are equal, wherever they are read. -/
theorem word_eq_of_bytes_eq {other : List UInt8} {word another : Word}
    (hmem : word ∈ (a.reading input).words) (hother : another ∈ (a.reading other).words)
    (hbytes : word.bytes = another.bytes) : word = another := by
  obtain ⟨category, hlexeme, hword⟩ := exists_isLexeme_of_mem hmem
  obtain ⟨category', hlexeme', hanother⟩ := exists_isLexeme_of_mem hother
  rw [← hbytes] at hlexeme' hanother
  rw [hword, hanother, hlexeme.unique hlexeme']

/-- A text that a scan knows is that of a word. -/
theorem exists_word_of_lexeme? {source : List UInt8} {token : Token} {text : String}
    (h : (a.scan source).lexeme? token = some text) :
    ∃ word ∈ (a.reading source).words, word.text = text := by
  have hmem : text ∈ (a.scan source).lexicon.texts.toList :=
    Array.mem_toList_iff.mpr (Array.mem_of_getElem? h)
  rw [texts_scan, List.mem_eraseDups, lexemes] at hmem
  exact List.mem_map.mp hmem

/-- The categories of the tokens are those of the words. -/
theorem map_category_scan (a : Automaton) (source : List UInt8) :
    (a.scan source).tokens.map Token.category = (a.reading source).words.map Word.category := by
  have hlength := Lexicon.empty.length_internAll ((a.reading source).words.map Word.text)
  rw [List.length_map] at hlength
  rw [scan_eq_reading, Reading.transcript, List.map_zipWith]
  apply List.ext_getElem
  · simp [hlength]
  · simp

/-- A scan of a lexeme gives one token. -/
theorem IsLexeme.exists_scan_eq (h : a.IsLexeme bytes category) :
    ∃ token, (a.scan bytes).tokens = [token] ∧
      token.category = category.resolve (lexemeText bytes) ∧
      (a.scan bytes).lexeme? token = some (lexemeText bytes) ∧ (a.scan bytes).error = none := by
  have hwords : (a.reading bytes).words = [.ofLexeme category bytes] := by rw [h.reading_eq]
  have hsize : (a.scan bytes).lexicon.size ≤ UInt32.size := by
    rw [size_scan, lexemes, hwords]
    simp [List.eraseDups_cons, UInt32.size]
  have hspells := spells_scan hsize
  rw [hwords, Transcript.Spells, List.map_singleton, List.map_eq_singleton_iff] at hspells
  obtain ⟨token, htokens, hpair⟩ := hspells
  obtain ⟨hcategory, htext⟩ := Prod.mk.inj hpair
  refine ⟨token, htokens, hcategory, htext, ?_⟩
  rw [scan_eq_reading, h.reading_eq]
  rfl

end Automaton

namespace Scanner

variable {a : Automaton} {bytes : List UInt8} {category : Category}

/-- Of a lexeme that stands alone, a scanner answers one token, and then that the source has
ended. -/
theorem nextToken_of_isLexeme (h : a.IsLexeme bytes category) :
    ∃ token later, (ofSource a bytes).nextToken = (.ok (some token), later) ∧
      later.lexeme? token.id = some (lexemeText bytes) ∧
      later.nextToken = (.ok none, later) := by
  have hmunch : a.munch (ofSource a bytes).rest = .lexeme 0 bytes.length category := h.munch_eq
  obtain ⟨later, hnext, hmoves⟩ := nextToken_of_lexeme rfl hmunch
  have htext : (ofSource a bytes).textAhead 0 bytes.length = lexemeText bytes := by
    simp [textAhead, ofSource]
  have hrest : later.rest = [] := by
    rw [hmoves.rest_eq]
    exact List.drop_length
  rw [htext] at hnext hmoves
  refine ⟨_, later, hnext, ?_, nextToken_of_rest_nil hmoves.failure_eq hrest⟩
  rw [lexeme?, hmoves.lexicon_eq]
  apply Lexicon.text?_intern
  have hempty : (ofSource a bytes).lexicon.size = 0 := rfl
  have hsize := (ofSource a bytes).lexicon.size_intern_le (lexemeText bytes)
  rw [hempty] at hsize
  exact Nat.le_trans hsize (by decide)

end Scanner

/-- Every token of a transcript has the category and the text of some word. -/
theorem Transcript.Spells.exists_word {transcript : Transcript} {words : List Word}
    (h : transcript.Spells words) {token : Token} (hmem : token ∈ transcript.tokens) :
    ∃ word ∈ words, token.category = word.category ∧
      transcript.lexeme? token = some word.text := by
  have hpair := List.mem_map_of_mem (f := fun token => (token.category, transcript.lexeme? token))
    hmem
  rw [h, List.mem_map] at hpair
  obtain ⟨word, hword, heq⟩ := hpair
  obtain ⟨hcategory, htext⟩ := Prod.mk.inj heq
  exact ⟨word, hword, hcategory.symm, htext.symm⟩

namespace Automaton

variable {a : Automaton}

/-- Bytes are a lexeme of some category if the walk over them leaves the start state for good and
ends in an accepting state. -/
theorem exists_isLexeme_iff {bytes : List UInt8} :
    (∃ category, a.IsLexeme bytes category) ↔
      bytes ≠ [] ∧
        (∀ place, 0 < place → place ≤ bytes.length →
          a.stateAt? bytes place ≠ some State.start) ∧
        ∃ state, a.walk? State.start bytes = some state ∧ a.accepts state := by
  constructor
  · rintro ⟨category, hlexeme⟩
    obtain ⟨state, hwalk, hcategory⟩ := Option.bind_eq_some_iff.mp hlexeme.category_eq
    exact ⟨hlexeme.ne_nil, hlexeme.leaves, state, hwalk, Option.isSome_of_eq_some hcategory⟩
  · rintro ⟨hne, hleaves, state, hwalk, haccepts⟩
    obtain ⟨category, hcategory⟩ := Option.isSome_iff_exists.mp haccepts
    exact ⟨category, hne, hleaves, Option.bind_eq_some_iff.mpr ⟨state, hwalk, hcategory⟩⟩

/-- Tokens with the same text have the same category, also in scans of different sources. -/
theorem category_eq_of_lexeme?_eq {source other : List UInt8}
    (hsize : (a.scan source).lexicon.size ≤ UInt32.size)
    (hother : (a.scan other).lexicon.size ≤ UInt32.size) {token another : Token}
    (hmem : token ∈ (a.scan source).tokens) (hmem' : another ∈ (a.scan other).tokens)
    (htext : (a.scan source).lexeme? token = (a.scan other).lexeme? another) :
    token.category = another.category := by
  obtain ⟨word, hword, hcategory, hlexeme⟩ := (spells_scan hsize).exists_word hmem
  obtain ⟨word', hword', hcategory', hlexeme'⟩ := (spells_scan hother).exists_word hmem'
  rw [hlexeme, hlexeme', Option.some.injEq] at htext
  rw [hcategory, hcategory', word_eq_of_bytes_eq hword hword' (lexemeText_injective htext)]

/-- The bytes of the lexemes of an automaton are told in four ways: a token of some scan has their
text, a word of some source has them, the walk over them leaves the start state for good and ends in
an accepting state, and a scanner with nothing else ahead answers one token with their text and then
the end of the source. They tell the category of a word in all sources, and so of a token in all
scans. While numbers last, tokens of a scan with the same number have the same category. -/
theorem lexemes_tfae (a : Automaton) :
    (∀ bytes, [
      ∃ source, ∃ token ∈ (a.scan source).tokens,
        (a.scan source).lexeme? token = some (lexemeText bytes),
      ∃ source, ∃ word ∈ (a.reading source).words, word.bytes = bytes,
      bytes ≠ [] ∧
        (∀ place, 0 < place → place ≤ bytes.length →
          a.stateAt? bytes place ≠ some State.start) ∧
        ∃ state, a.walk? State.start bytes = some state ∧ a.accepts state,
      ∃ token later, (Scanner.ofSource a bytes).nextToken = (.ok (some token), later) ∧
        later.lexeme? token.id = some (lexemeText bytes) ∧
        later.nextToken = (.ok none, later)].TFAE) ∧
    (∀ source other,
      (a.scan source).tokens.map Token.category = (a.reading source).words.map Word.category ∧
      (∀ word ∈ (a.reading source).words, ∀ another ∈ (a.reading other).words,
        word.bytes = another.bytes → word.category = another.category) ∧
      ((a.scan source).lexicon.size ≤ UInt32.size → (a.scan other).lexicon.size ≤ UInt32.size →
        ∀ token ∈ (a.scan source).tokens, ∀ another ∈ (a.scan other).tokens,
          (a.scan source).lexeme? token = (a.scan other).lexeme? another →
            token.category = another.category)) ∧
    ∀ source, (a.scan source).lexicon.size ≤ UInt32.size →
      ∀ token ∈ (a.scan source).tokens, ∀ another ∈ (a.scan source).tokens,
        token.id = another.id → token.category = another.category := by
  refine ⟨?_, ?_, ?_⟩
  · intro bytes
    rw [← exists_isLexeme_iff]
    tfae_have 1 → 2 := by
      rintro ⟨source, token, -, hlexeme⟩
      obtain ⟨word, hword, htext⟩ := exists_word_of_lexeme? hlexeme
      exact ⟨source, word, hword, lexemeText_injective htext⟩
    tfae_have 2 → 3 := by
      rintro ⟨source, word, hword, rfl⟩
      obtain ⟨category, hlexeme, -⟩ := exists_isLexeme_of_mem hword
      exact ⟨category, hlexeme⟩
    tfae_have 3 → 4 := by
      rintro ⟨category, hlexeme⟩
      exact Scanner.nextToken_of_isLexeme hlexeme
    tfae_have 4 → 1 := by
      rintro ⟨token, later, hnext, hlexeme, hend⟩
      refine ⟨bytes, token, ?_, ?_⟩
      · rw [scan, Scanner.transcript_of_token hnext]
        exact List.mem_cons_self
      · rw [scan, Scanner.transcript_of_token hnext, Scanner.transcript_of_end hend]
        exact hlexeme
    tfae_finish
  · intro source other
    refine ⟨a.map_category_scan source, ?_, ?_⟩
    · intro word hword another hanother hbytes
      rw [word_eq_of_bytes_eq hword hanother hbytes]
    · intro hsize hother token hmem another hmem' htext
      exact category_eq_of_lexeme?_eq hsize hother hmem hmem' htext
  · intro source hsize token hmem another hmem' hid
    apply category_eq_of_lexeme?_eq hsize hsize hmem hmem'
    rw [Transcript.lexeme?, Transcript.lexeme?, hid]

/-- A fraction is a lexeme, which a scanner with nothing else ahead answers. The two equal numbers
of a text that repeats one have one number as tokens, and so they have the same category. -/
theorem lexemes_tfae_numerals :
    (∃ token later,
      (Scanner.ofSource numerals [0x31, 0x2E, 0x31]).nextToken = (.ok (some token), later) ∧
        later.lexeme? token.id = some (lexemeText [0x31, 0x2E, 0x31]) ∧
        later.nextToken = (.ok none, later)) ∧
    (numerals.scan repeatedText).lexicon.size ≤ UInt32.size ∧
    ∃ first second third, (numerals.scan repeatedText).tokens = [first, second, third] ∧
      first.id = third.id ∧ first.category = third.category ∧
      (numerals.scan repeatedText).lexeme? first = (numerals.scan repeatedText).lexeme? third := by
  obtain ⟨htfae, hcategories, hids⟩ := lexemes_tfae numerals
  have hsize : (numerals.scan repeatedText).lexicon.size ≤ UInt32.size :=
    Nat.le_trans (Scanner.size_transcript_le _) (by decide)
  have hwords : (numerals.reading repeatedText).words =
      [⟨.integerLiteral, [0x31, 0x31]⟩, ⟨.integerLiteral, [0x31]⟩,
        ⟨.integerLiteral, [0x31, 0x31]⟩] := by
    decide +kernel
  have hfraction : numerals.munch [0x31, 0x2E, 0x31] = .lexeme 0 3 .floatingPointLiteral := by
    decide +kernel
  constructor
  · apply ((htfae [0x31, 0x2E, 0x31]).out 2 3).mp
    exact exists_isLexeme_iff.mp ⟨_, (munch_eq_iff.mp hfraction).isLexeme⟩
  · have hlength := congrArg List.length (hcategories repeatedText repeatedText).1
    rw [List.length_map, List.length_map, hwords] at hlength
    obtain ⟨first, second, third, htokens⟩ := List.length_eq_three.mp hlength
    have hfirst : (first, (⟨.integerLiteral, [0x31, 0x31]⟩ : Word)) ∈
        (numerals.scan repeatedText).tokens.zip (numerals.reading repeatedText).words := by
      simp [htokens, hwords]
    have hthird : (third, (⟨.integerLiteral, [0x31, 0x31]⟩ : Word)) ∈
        (numerals.scan repeatedText).tokens.zip (numerals.reading repeatedText).words := by
      simp [htokens, hwords]
    have hid : first.id = third.id := ((spells_scan hsize).id_eq_iff hfirst hthird).mpr rfl
    refine ⟨hsize, first, second, third, htokens, hid, ?_, ?_⟩
    · exact hids repeatedText hsize first (by simp [htokens]) third (by simp [htokens]) hid
    · rw [Transcript.lexeme?, Transcript.lexeme?, hid]

end Automaton

end TableLexer
