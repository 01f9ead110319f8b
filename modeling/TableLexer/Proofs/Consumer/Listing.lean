import TableLexer.Consumer.Listing
import TableLexer.Proofs.Consumer.Resumption

/-!
# The listing of a scan

A listing says what the words of a scan are, one line for each, and what its failure is, behind the
last line. A writer that refuses nothing is left with this text, however little of it is written at
a time. The text tells the words and the failure: as long as no lexeme contains a line feed, a line
is over at the first one, its category is over at the first space, and a message, which has no line
feed, is not taken for a line.
-/

namespace TableLexer

/-! ### The text -/

/-- The line of a word. -/
def Word.line (word : Word) : String := word.category.name ++ " " ++ word.text ++ "\n"

/-- The lines of some words. -/
def wordLines (words : List Word) : String := String.join (words.map Word.line)

/-- The text of a listing: the lines of the words, and the message of the failure if there is one.
No line feed follows the message. -/
def listingText (words : List Word) (error : Option LexicalError) : String :=
  wordLines words ++ error.elim "" LexicalError.message

/-- The pieces of a line make up the line. -/
theorem join_linePieces (word : Word) :
    String.join (linePieces word.category word.text) = word.line := by
  simp only [linePieces, String.join_cons, String.join_nil, String.append_empty, Word.line,
    String.append_assoc]

/-- The line of the first word comes first. -/
theorem wordLines_cons (word : Word) (words : List Word) :
    wordLines (word :: words) = word.line ++ wordLines words :=
  String.join_cons

/-- A single word has a single line. -/
theorem wordLines_singleton (word : Word) : wordLines [word] = word.line := by
  rw [wordLines_cons]
  exact String.append_empty

/-- The lines of further words come behind those of the first ones. -/
theorem wordLines_append (words more : List Word) :
    wordLines (words ++ more) = wordLines words ++ wordLines more := by
  rw [wordLines, List.map_append, String.join_append]
  rfl

/-! ### Decoding -/

/-- What stands before the first of two equal marks is the same, and so is what stands behind. -/
theorem eq_of_append_mark {α : Type} {mark : α} {front front' back back' : List α}
    (hfront : mark ∉ front) (hfront' : mark ∉ front')
    (h : front ++ mark :: back = front' ++ mark :: back') : front = front' ∧ back = back' := by
  induction front generalizing front' with
  | nil =>
    cases front' with
    | nil => exact ⟨rfl, (List.cons.inj h).2⟩
    | cons first more => exact absurd ((List.cons.inj h).1 ▸ List.mem_cons_self) hfront'
  | cons first more ih =>
    cases front' with
    | nil => exact absurd ((List.cons.inj h).1 ▸ List.mem_cons_self) hfront
    | cons first' more' =>
      obtain ⟨rfl, hmore⟩ := List.cons.inj h
      obtain ⟨rfl, rfl⟩ := ih (List.not_mem_of_not_mem_cons hfront)
        (List.not_mem_of_not_mem_cons hfront') hmore
      exact ⟨rfl, rfl⟩

/-- The name of a category has neither a space nor a line feed. -/
theorem Category.not_mem_name (category : Category) :
    ' ' ∉ category.name.toList ∧ '\n' ∉ category.name.toList := by
  cases category <;> decide

/-- Different categories have different names. -/
theorem Category.name_injective : Function.Injective Category.name := by
  intro category other h
  have hback := Category.ofName?_name category
  rw [h, Category.ofName?_name] at hback
  exact (Option.some.inj hback).symm

/-- A word without the byte LF has no line feed in its text. -/
theorem Word.not_mem_text {word : Word} (h : 0x0A ∉ word.bytes) : '\n' ∉ word.text.toList := by
  intro hmem
  rw [Word.text, lexemeText, String.toList_ofList] at hmem
  obtain ⟨b, hb, hcode⟩ := List.mem_map.mp hmem
  have hfeed : b = 0x0A := ofUInt8_injective hcode
  exact h (hfeed ▸ hb)

/-- A line goes up to its line feed, and its category goes up to its first space. -/
theorem Word.toList_line_append (word : Word) (back : List Char) : word.line.toList ++ back =
    (word.category.name.toList ++ ' ' :: word.text.toList) ++ '\n' :: back := by
  simp [Word.line]

/-- Texts that begin with lines are the same only if the lines are. -/
theorem Word.eq_of_line_append {word other : Word} {back back' : List Char}
    (hword : 0x0A ∉ word.bytes) (hother : 0x0A ∉ other.bytes)
    (h : word.line.toList ++ back = other.line.toList ++ back') : word = other ∧ back = back' := by
  have hopen {word : Word} (hfree : 0x0A ∉ word.bytes) :
      '\n' ∉ word.category.name.toList ++ ' ' :: word.text.toList := by
    simp [(word.category.not_mem_name).2, Word.not_mem_text hfree]
  rw [Word.toList_line_append, Word.toList_line_append] at h
  obtain ⟨hline, hback⟩ := eq_of_append_mark (hopen hword) (hopen hother) h
  obtain ⟨hname, htext⟩ :=
    eq_of_append_mark word.category.not_mem_name.1 other.category.not_mem_name.1 hline
  have hcategory : word.category = other.category :=
    Category.name_injective (String.toList_inj.mp hname)
  have hbytes : word.bytes = other.bytes := lexemeText_injective (String.toList_inj.mp htext)
  cases word
  cases other
  cases hcategory
  cases hbytes
  exact ⟨rfl, hback⟩

/-- The message of a failure is a fixed text and the digits of its place. -/
theorem LexicalError.toList_message (e : LexicalError) : e.message.toList =
    "Lexer Error at character number ".toList ++ Nat.toDigits 10 e.position := by
  rw [← e.join_pieces, String.toList_join]
  simp [pieces, Nat.toList_repr]

/-- There is no line feed in the message of a failure. -/
theorem LexicalError.not_mem_message (e : LexicalError) : '\n' ∉ e.message.toList := by
  rw [e.toList_message, List.mem_append, not_or]
  refine ⟨by decide, ?_⟩
  intro hmem
  have hdigit := Nat.isDigit_of_mem_toDigits (by decide) (by decide) hmem
  simp at hdigit

/-- Failures at different places have different messages. -/
theorem LexicalError.message_injective : Function.Injective LexicalError.message := by
  intro e other h
  have hlist := congrArg String.toList h
  rw [e.toList_message, other.toList_message] at hlist
  have hdigits := congrArg (Nat.ofDigitChars 10 · 0) (List.append_cancel_left hlist)
  simp only [Nat.ofDigitChars_ten_toDigits] at hdigits
  exact congrArg LexicalError.mk hdigits

/-- A listing without words is the message of the failure, or nothing. -/
theorem listingText_nil (error : Option LexicalError) :
    listingText [] error = error.elim "" LexicalError.message :=
  String.empty_append

/-- A listing begins with the line of its first word. -/
theorem listingText_cons (word : Word) (words : List Word) (error : Option LexicalError) :
    listingText (word :: words) error = word.line ++ listingText words error := by
  rw [listingText, wordLines_cons, String.append_assoc]
  rfl

/-- Behind the lines there is no line feed, and what is there tells the failure. -/
theorem not_mem_listingText_nil (error : Option LexicalError) :
    '\n' ∉ (listingText [] error).toList := by
  rw [listingText_nil]
  cases error with
  | none => exact List.not_mem_nil
  | some e => exact e.not_mem_message

/-- Listings without words tell the failures apart. -/
theorem listingText_nil_injective : Function.Injective (listingText []) := by
  intro error other h
  have hnonempty (e : LexicalError) : "" ≠ e.message := by
    intro hempty
    have hlist := congrArg String.toList hempty
    rw [e.toList_message] at hlist
    simp at hlist
  simp only [listingText_nil] at h
  cases error with
  | none =>
    cases other with
    | none => rfl
    | some e => exact absurd h (hnonempty e)
  | some e =>
    cases other with
    | none => exact absurd h.symm (hnonempty e)
    | some e' => exact congrArg some (LexicalError.message_injective h)

/-- The text of a listing tells its words and its failure, unless there is a line feed in a
word. -/
theorem listingText_inj {words others : List Word} {error other : Option LexicalError}
    (hwords : ∀ word ∈ words, 0x0A ∉ word.bytes) (hothers : ∀ word ∈ others, 0x0A ∉ word.bytes) :
    listingText words error = listingText others other ↔ words = others ∧ error = other := by
  have hfeed (word : Word) (words : List Word) (error : Option LexicalError) :
      '\n' ∈ (listingText (word :: words) error).toList := by
    rw [listingText_cons, String.toList_append, Word.toList_line_append]
    exact List.mem_append_right _ List.mem_cons_self
  refine ⟨fun h => ?_, fun ⟨hsame, herror⟩ => hsame ▸ herror ▸ rfl⟩
  induction words generalizing others with
  | nil =>
    cases others with
    | nil => exact ⟨rfl, listingText_nil_injective h⟩
    | cons first more => exact absurd (h ▸ hfeed first more other) (not_mem_listingText_nil error)
  | cons word words ih =>
    cases others with
    | nil => exact absurd (h ▸ hfeed word words error) (not_mem_listingText_nil other)
    | cons first more =>
      rw [listingText_cons, listingText_cons, ← String.toList_inj, String.toList_append,
        String.toList_append] at h
      obtain ⟨rfl, hback⟩ := Word.eq_of_line_append (hwords word List.mem_cons_self)
        (hothers first List.mem_cons_self) h
      obtain ⟨rfl, rfl⟩ := ih (fun word hword => hwords word (List.mem_cons_of_mem _ hword))
        (fun word hword => hothers word (List.mem_cons_of_mem _ hword))
        (String.toList_inj.mp hback)
      exact ⟨rfl, rfl⟩

/-! ### Writing -/

namespace Writer

variable {σ ε : Type} {writer : Writer σ ε} {text : σ → String}

/-- A text that is found in the states of a writer: a piece that is taken stands at its end, and a
flush leaves it as it is. -/
structure Appends (writer : Writer σ ε) (text : σ → String) : Prop where
  /-- A piece goes behind the text. -/
  write : ∀ {piece state later}, writer.write piece state = .ok () later →
    text later = text state ++ piece
  /-- A flush does not change the text. -/
  flush : ∀ {state later}, writer.flush state = .ok () later → text later = text state

/-- A writer that refuses nothing. -/
structure Obliging (writer : Writer σ ε) : Prop where
  /-- It takes every piece. -/
  write : ∀ piece state, ∃ later, writer.write piece state = .ok () later
  /-- It can always be flushed. -/
  flush : ∀ state, ∃ later, writer.flush state = .ok () later

/-- Pieces are written one by one, up to the first one that is refused. -/
theorem writeAll_cons (writer : Writer σ ε) (piece : String) (pieces : List String) (state : σ) :
    writer.writeAll (piece :: pieces) state =
      match writer.write piece state with
      | .ok _ next => writer.writeAll pieces next
      | .error refusal after => .error refusal after := by
  change EStateM.bind (writer.write piece) (fun _ => writer.writeAll pieces) state = _
  rw [EStateM.bind]
  cases writer.write piece state <;> rfl

/-- Pieces that are all taken stand at the end of the text. -/
theorem Appends.writeAll (happends : writer.Appends text) {pieces : List String} {state later : σ}
    (h : writer.writeAll pieces state = .ok () later) :
    text later = text state ++ String.join pieces := by
  induction pieces generalizing state with
  | nil =>
    cases h
    rw [String.join_nil, String.append_empty]
  | cons piece pieces ih =>
    rw [writeAll_cons] at h
    cases hpiece : writer.write piece state with
    | ok _ next =>
      rw [hpiece] at h
      rw [ih h, happends.write hpiece, String.join_cons, String.append_assoc]
    | error refusal after =>
      rw [hpiece] at h
      cases h

/-- An obliging writer takes all pieces. -/
theorem Obliging.writeAll (hobliging : writer.Obliging) (pieces : List String) (state : σ) :
    ∃ later, writer.writeAll pieces state = .ok () later := by
  induction pieces generalizing state with
  | nil => exact ⟨state, rfl⟩
  | cons piece pieces ih =>
    obtain ⟨next, hpiece⟩ := hobliging.write piece state
    obtain ⟨later, hpieces⟩ := ih next
    refine ⟨later, ?_⟩
    rw [writeAll_cons, hpiece]
    exact hpieces

end Writer

namespace Writer

/-- A piece that a page takes goes behind the text on it. -/
theorem appends_page (room : Option Nat) (flushFails : Bool) :
    (Writer.page room flushFails).Appends Page.text where
  write := by
    intro piece page later h
    rw [write_page] at h
    split at h
    · cases h
    · cases h
      rfl
  flush := by
    intro page later h
    rw [flush_page] at h
    split at h
    · cases h
    · cases h
      rfl

/-- A page without limit that can be flushed refuses nothing. -/
theorem obliging_page : (Writer.page none false).Obliging where
  write := fun piece page => ⟨_, write_page piece page⟩
  flush := fun page => ⟨_, flush_page page⟩

end Writer

/-- What a listing says of a call. -/
def Call.text : Call → String
  | .accept token lexeme => String.join (linePieces token.category lexeme)
  | .error e => e.message

namespace Consumer

variable {σ ε : Type} {writer : Writer σ ε} {text : σ → String}

/-- A listing writes the message of a failure piece by piece, and flushes when all are taken. -/
theorem listing_error (writer : Writer σ ε) (e : LexicalError) (state : σ) :
    (listing writer).error e state =
      match writer.writeAll e.pieces state with
      | .ok _ next => writer.flush next
      | .error refusal after => .error refusal after := by
  change EStateM.bind (writer.writeAll e.pieces) (fun _ => writer.flush) state = _
  rw [EStateM.bind]
  cases writer.writeAll e.pieces state <;> rfl

/-- A listing refuses nothing that its writer does not refuse. -/
theorem obliging_listing (hobliging : writer.Obliging) : (listing writer).Obliging where
  accept := fun token lexeme => hobliging.writeAll (linePieces token.category lexeme)
  error := by
    intro e state
    obtain ⟨next, hpieces⟩ := hobliging.writeAll e.pieces state
    rw [listing_error, hpieces]
    exact hobliging.flush next

/-- A consumer that refuses nothing takes any calls. -/
theorem Obliging.exists_takes {consumer : Consumer σ ε} (hobliging : consumer.Obliging)
    (calls : List Call) (state : σ) : ∃ later, consumer.Takes state calls later := by
  induction calls generalizing state with
  | nil => exact ⟨state, .nil state⟩
  | cons call calls ih =>
    have htaken : ∃ next, consumer.answer call state = .ok () next := by
      cases call with
      | accept token lexeme => exact hobliging.accept token lexeme state
      | error e => exact hobliging.error e state
    obtain ⟨next, hnext⟩ := htaken
    obtain ⟨later, hrest⟩ := ih next
    exact ⟨later, .cons hnext hrest⟩

/-- What a listing says of a call that it takes goes behind the text. -/
theorem text_answer_listing (happends : writer.Appends text) {call : Call} {state later : σ}
    (h : (listing writer).answer call state = .ok () later) :
    text later = text state ++ call.text := by
  cases call with
  | accept token lexeme => exact happends.writeAll h
  | error e =>
    rw [answer, listing_error] at h
    cases hpieces : writer.writeAll e.pieces state with
    | ok _ next =>
      rw [hpieces] at h
      rw [happends.flush h, happends.writeAll hpieces, e.join_pieces]
      rfl
    | error refusal after =>
      rw [hpieces] at h
      cases h

/-- The calls that a listing takes are found as text behind what was written before. -/
theorem text_takes_listing (happends : writer.Appends text) {calls : List Call} {state later : σ}
    (h : (listing writer).Takes state calls later) :
    text later = text state ++ String.join (calls.map Call.text) := by
  induction h with
  | nil state => rw [List.map_nil, String.join_nil, String.append_empty]
  | cons htaken _ ih =>
    rw [ih, text_answer_listing happends htaken, List.map_cons, String.join_cons,
      String.append_assoc]

end Consumer

namespace Transcript

variable {transcript : Transcript} {words : List Word}

/-- Tokens have the categories of the words that they spell. -/
theorem Spells.map_category (h : transcript.Spells words) :
    transcript.tokens.map Token.category = words.map Word.category := by
  have hfirst := congrArg (List.map Prod.fst) h
  rw [List.map_map, List.map_map] at hfirst
  exact hfirst

/-- There is a word for every token. -/
theorem Spells.length_zip (h : transcript.Spells words) :
    (transcript.tokens.zip (words.map Word.text)).length = transcript.tokens.length := by
  have hlength := congrArg List.length h.map_category
  rw [List.length_map, List.length_map] at hlength
  rw [List.length_zip, List.length_map, ← hlength, Nat.min_self]

/-- The calls for the tokens are written as the lines of the words. -/
theorem Spells.map_text (h : transcript.Spells words) :
    ((transcript.tokens.zip (words.map Word.text)).map Call.give).map Call.text =
      words.map Word.line := by
  calc ((transcript.tokens.zip (words.map Word.text)).map Call.give).map Call.text
      = List.zipWith (fun category lexeme => String.join (linePieces category lexeme))
          (transcript.tokens.map Token.category) (words.map Word.text) := by
        rw [List.map_map, List.zip, List.map_zipWith, List.zipWith_map_left]
        rfl
    _ = words.map Word.line := by
        rw [h.map_category, List.zipWith_map, List.zipWith_self]
        exact List.map_congr_left fun word _ => join_linePieces word

end Transcript

namespace Scanner

variable {a : Automaton}

/-- What a scanner answers is what it answered so far, and then what the later one answers. -/
theorem Passes.yields {s last final : Scanner a} {pairs : List (Token × String)}
    {tokens : List Token} {error : Option LexicalError} (h : s.Passes pairs last)
    (hlast : last.Yields tokens error final) :
    s.Yields (pairs.map Prod.fst ++ tokens) error final := by
  induction h with
  | nil s => exact hlast
  | cons hnext _ _ ih => exact .token hnext (ih hlast)

/-- Behind the tokens of a scan there is its failure, or the end of the source. -/
theorem exists_passes_zip {source : List UInt8}
    (hspells : (a.scan source).Spells (a.reading source).words) :
    ∃ last final, (ofSource a source).Passes ((a.scan source).tokens.zip (a.lexemes source)) last ∧
      last.Yields [] (a.scan source).error final := by
  obtain ⟨last, hpasses, hrests⟩ := passes_zip hspells
  obtain ⟨tokens, error, final, hyields⟩ := last.exists_yields
  have hnone : tokens = [] := by
    cases hyields with
    | ended => rfl
    | failed => rfl
    | token hnext => exact absurd hnext (hrests _ _)
  subst hnone
  have herror : (a.scan source).error = error := by
    rw [Automaton.scan, (hpasses.yields hyields).transcript_eq]
  exact ⟨last, final, hpasses, herror ▸ hyields⟩

end Scanner

namespace Automaton

variable {σ ε : Type} {writer : Writer σ ε} {text : σ → String} {a : Automaton}
  {source : List UInt8}

/-- Lists a source to a writer. -/
def listTo (a : Automaton) (writer : Writer σ ε) (source : List UInt8) (state : σ) :
    Feeding a σ ε :=
  (Scanner.ofSource a source).feed (.listing writer) state

/-- The text of the listing of a source. -/
def listing (a : Automaton) (source : List UInt8) : String :=
  listingText (a.reading source).words (a.scan source).error

/-- While numbers last, the tokens of a scan spell the words that are read off the source. -/
theorem spells_of_length_le (hsize : (a.lexemes source).eraseDups.length ≤ UInt32.size) :
    (a.scan source).Spells (a.reading source).words :=
  spells_scan (a.size_scan source ▸ hsize)

/-- A listing that takes all tokens of a source is fed on where there is no further one. -/
theorem exists_listTo_eq_feedFrom (hspells : (a.scan source).Spells (a.reading source).words)
    {state next : σ} (htakes : (Consumer.listing writer).Takes state
      (((a.scan source).tokens.zip (a.lexemes source)).map Call.give) next) :
    ∃ last final : Scanner a, last.Yields [] (a.scan source).error final ∧
      a.listTo writer source state =
        last.feedFrom (.listing writer) (a.scan source).tokens.length next := by
  obtain ⟨last, final, hpasses, hlast⟩ := Scanner.exists_passes_zip hspells
  refine ⟨last, final, hlast, ?_⟩
  rw [listTo, Scanner.feed, hpasses.feedFrom_eq htakes, lexemes, hspells.length_zip, Nat.zero_add]

/-- While numbers last, a writer that refuses nothing is left with the text of the listing behind
its own. -/
theorem listTo_of_obliging (happends : writer.Appends text) (hobliging : writer.Obliging)
    (hspells : (a.scan source).Spells (a.reading source).words) (state : σ) :
    (a.listTo writer source state).report =
        .ok ⟨(a.scan source).tokens.length, (a.scan source).error⟩ ∧
      text (a.listTo writer source state).state = text state ++ a.listing source := by
  have hlisting := Consumer.obliging_listing hobliging
  obtain ⟨next, htakes⟩ := hlisting.exists_takes
    (((a.scan source).tokens.zip (a.lexemes source)).map Call.give) state
  have hlines : text next = text state ++ wordLines (a.reading source).words := by
    rw [Consumer.text_takes_listing happends htakes, lexemes, hspells.map_text, wordLines]
  obtain ⟨last, final, hlast, hfeed⟩ := exists_listTo_eq_feedFrom hspells htakes
  rw [hfeed, listing, listingText]
  cases herror : (a.scan source).error with
  | none =>
    rw [herror] at hlast
    cases hlast with
    | ended hnext =>
      rw [Scanner.feedFrom_of_end hnext]
      exact ⟨rfl, hlines.trans (by rw [Option.elim_none, String.append_empty])⟩
  | some e =>
    rw [herror] at hlast
    cases hlast with
    | failed hnext =>
      obtain ⟨later, htaken⟩ := hlisting.error e next
      have htold : text later = text next ++ (Call.error e).text :=
        Consumer.text_answer_listing happends htaken
      rw [Scanner.feedFrom_of_error hnext, htaken]
      refine ⟨rfl, ?_⟩
      rw [htold, hlines, String.append_assoc]
      rfl

/-- A writer that refuses nothing is left with the listing of a source while numbers last: one line
for each token of the scan, its category, a space and its lexeme, and behind them the message of the
failure if there is one. Of two listings without a line feed in a lexeme, the texts are the same if
and only if the words and the failures are. -/
theorem listTo_unambiguous (happends : writer.Appends text) (hobliging : writer.Obliging) :
    (∀ (a : Automaton) (source : List UInt8) (state : σ),
      (a.lexemes source).eraseDups.length ≤ UInt32.size →
      (a.scan source).Spells (a.reading source).words ∧
      (a.listTo writer source state).report =
        .ok ⟨(a.scan source).tokens.length, (a.scan source).error⟩ ∧
      text (a.listTo writer source state).state = text state ++ a.listing source) ∧
    ∀ (a other : Automaton) (source otherSource : List UInt8) (state otherState : σ),
      (a.lexemes source).eraseDups.length ≤ UInt32.size →
      (other.lexemes otherSource).eraseDups.length ≤ UInt32.size →
      text state = text otherState →
      (∀ word ∈ (a.reading source).words, 0x0A ∉ word.bytes) →
      (∀ word ∈ (other.reading otherSource).words, 0x0A ∉ word.bytes) →
      (text (a.listTo writer source state).state =
          text (other.listTo writer otherSource otherState).state ↔
        (a.reading source).words = (other.reading otherSource).words ∧
          (a.scan source).error = (other.scan otherSource).error) := by
  constructor
  · intro a source state hsize
    have hspells := spells_of_length_le hsize
    exact ⟨hspells, listTo_of_obliging happends hobliging hspells state⟩
  · intro a other source otherSource state otherState hsize hother hstate hwords hothers
    have htext := listTo_of_obliging happends hobliging (spells_of_length_le hsize) state
    have htext' := listTo_of_obliging happends hobliging (spells_of_length_le hother) otherState
    rw [htext.2, htext'.2, hstate, String.append_right_inj]
    exact listingText_inj hwords hothers

/-- The listings of a text with one number and of one with three, both of which fail at a point, are
different. -/
theorem listTo_unambiguous_numerals :
    (Writer.page none false).Appends Page.text ∧ (Writer.page none false).Obliging ∧
      (numerals.listTo (.page none false) numeralText {}).state.text =
        "INTEGER_LITERAL 11\nLexer Error at character number 3" ∧
      (numerals.listTo (.page none false) numeralText {}).state.text ≠
        (numerals.listTo (.page none false) repeatedText {}).state.text := by
  have hwords : (numerals.reading numeralText).words = [⟨.integerLiteral, [0x31, 0x31]⟩] := by
    decide +kernel
  have herror : (numerals.scan numeralText).error = some ⟨3⟩ := by
    decide +kernel
  have hrepeated : (numerals.reading repeatedText).words =
      [⟨.integerLiteral, [0x31, 0x31]⟩, ⟨.integerLiteral, [0x31]⟩,
        ⟨.integerLiteral, [0x31, 0x31]⟩] := by
    decide +kernel
  have hsize : (numerals.lexemes numeralText).eraseDups.length ≤ UInt32.size := by
    rw [lexemes, hwords]
    decide
  have hsize' : (numerals.lexemes repeatedText).eraseDups.length ≤ UInt32.size := by
    rw [lexemes, hrepeated]
    decide
  have happends := Writer.appends_page none false
  obtain ⟨hlisted, hsame⟩ := listTo_unambiguous happends Writer.obliging_page
  refine ⟨happends, Writer.obliging_page, ?_, ?_⟩
  · rw [(hlisted numerals numeralText {} hsize).2.2, listing, hwords, herror]
    decide
  · intro h
    have hequal := (hsame numerals numerals numeralText repeatedText {} {} hsize hsize' rfl
      (by rw [hwords]; decide) (by rw [hrepeated]; decide)).mp h
    rw [hwords, hrepeated] at hequal
    simp at hequal

end Automaton

end TableLexer
