import Mathlib.Data.List.Induction
import TableLexer.Proofs.Consumer.Listing

/-!
# Listings on a page

A page takes the pieces of a listing while there is room for them. So the listing of a source is on
it as a whole if it fits, and otherwise a front of it is, up to some piece of the first line that
does not fit or of the message. The token of that line was taken from the scanner all the same, and
no token behind it was. A page is flushed only behind a message.
-/

namespace TableLexer

namespace Writer

variable {room : Nat} {flushFails : Bool} {page : Page} {pieces : List String}

/-- A piece with which the text has room is written behind it. -/
theorem write_page_fits {piece : String} (hfits : (page.text ++ piece).utf8ByteSize ≤ room) :
    (Writer.page (some room) flushFails).write piece page =
      .ok () { page with text := page.text ++ piece } := by
  rw [String.utf8ByteSize_append] at hfits
  rw [write_page, if_neg]
  simpa using hfits

/-- A piece with which the text has no room is refused, and the page stays as it is. -/
theorem write_page_overflow {piece : String}
    (hover : room < (page.text ++ piece).utf8ByteSize) :
    (Writer.page (some room) flushFails).write piece page = .error .noRoom page := by
  rw [String.utf8ByteSize_append] at hover
  rw [write_page, if_pos]
  simpa using hover

/-- Pieces that fit together are all taken. -/
theorem writeAll_page_fits (hfits : (page.text ++ String.join pieces).utf8ByteSize ≤ room) :
    (Writer.page (some room) flushFails).writeAll pieces page =
      .ok () { page with text := page.text ++ String.join pieces } := by
  induction pieces generalizing page with
  | nil =>
    rw [String.join_nil, String.append_empty]
    rfl
  | cons piece pieces ih =>
    rw [String.join_cons, ← String.append_assoc] at hfits ⊢
    have hpiece : (page.text ++ piece).utf8ByteSize ≤ room := by
      rw [String.utf8ByteSize_append] at hfits
      omega
    rw [writeAll_cons, write_page_fits hpiece]
    exact ih hfits

/-- Of pieces that do not fit together a front is taken, within the room. -/
theorem writeAll_page_overflow (flushFails : Bool) (page : Page)
    (hroom : page.text.utf8ByteSize ≤ room)
    (hover : room < (page.text ++ String.join pieces).utf8ByteSize) :
    ∃ front back, front ++ back = String.join pieces ∧
      (Writer.page (some room) flushFails).writeAll pieces page =
        .error .noRoom { page with text := page.text ++ front } := by
  induction pieces generalizing page with
  | nil =>
    rw [String.join_nil, String.append_empty] at hover
    omega
  | cons piece pieces ih =>
    rw [String.join_cons, ← String.append_assoc] at hover
    rw [writeAll_cons]
    by_cases hpiece : (page.text ++ piece).utf8ByteSize ≤ room
    · obtain ⟨front, back, hfront, hwritten⟩ :=
        ih { page with text := page.text ++ piece } hpiece hover
      refine ⟨piece ++ front, back, ?_, ?_⟩
      · rw [String.append_assoc, hfront, String.join_cons]
      · rw [write_page_fits hpiece, ← String.append_assoc]
        exact hwritten
    · refine ⟨"", _, String.empty_append, ?_⟩
      rw [write_page_overflow (Nat.lt_of_not_le hpiece), String.append_empty]

end Writer

namespace Consumer

variable {room : Nat} {flushFails : Bool} {page : Page} {pairs : List (Token × String)}
  {e : LexicalError}

/-- A listing takes tokens whose lines fit on the page together. -/
theorem takes_page (hfits : (page.text ++
      String.join ((pairs.map Call.give).map Call.text)).utf8ByteSize ≤ room) :
    (listing (.page (some room) flushFails)).Takes page (pairs.map Call.give)
      { page with text := page.text ++ String.join ((pairs.map Call.give).map Call.text) } := by
  induction pairs generalizing page with
  | nil =>
    rw [List.map_nil, List.map_nil, String.join_nil, String.append_empty]
    exact .nil page
  | cons pair pairs ih =>
    rw [List.map_cons, List.map_cons, String.join_cons, ← String.append_assoc] at hfits ⊢
    have hline : (page.text ++ (Call.give pair).text).utf8ByteSize ≤ room := by
      rw [String.utf8ByteSize_append] at hfits
      omega
    exact .cons (Writer.writeAll_page_fits hline) (ih hfits)

/-- An empty page takes all lines if their whole text has room. -/
theorem takes_empty_page {text : String}
    (htext : String.join ((pairs.map Call.give).map Call.text) = text)
    (hfits : text.utf8ByteSize ≤ room) :
    (listing (.page (some room) flushFails)).Takes {} (pairs.map Call.give) ⟨text, 0⟩ := by
  have hempty : ({} : Page).text ++ String.join ((pairs.map Call.give).map Call.text) = text :=
    String.empty_append.trans htext
  have htakes := @takes_page room flushFails {} pairs (hempty ▸ hfits)
  rw [hempty] at htakes
  exact htakes

/-- A message that fits on the page is flushed. -/
theorem error_page_fits (hfits : (page.text ++ e.message).utf8ByteSize ≤ room) :
    (listing (.page (some room) flushFails)).error e page =
      if flushFails then .error .flush ⟨page.text ++ e.message, page.flushes + 1⟩
      else .ok () ⟨page.text ++ e.message, page.flushes + 1⟩ := by
  rw [← e.join_pieces] at hfits ⊢
  rw [listing_error, Writer.writeAll_page_fits hfits]
  exact Writer.flush_page _

/-- Of a message that does not fit on the page, a front is taken, and there is no flush. -/
theorem error_page_overflow (flushFails : Bool) (page : Page)
    (hroom : page.text.utf8ByteSize ≤ room)
    (hover : room < (page.text ++ e.message).utf8ByteSize) :
    ∃ front back, front ++ back = e.message ∧
      (listing (.page (some room) flushFails)).error e page =
        .error .noRoom { page with text := page.text ++ front } := by
  rw [← e.join_pieces] at hover ⊢
  obtain ⟨front, back, hfront, hwritten⟩ :=
    Writer.writeAll_page_overflow flushFails page hroom hover
  refine ⟨front, back, hfront, ?_⟩
  rw [listing_error, hwritten]

end Consumer

/-- Of lines that do not fit together, there is a first one that does not fit. -/
theorem exists_first_overflow {room : Nat} {words : List Word}
    (hover : room < (wordLines words).utf8ByteSize) :
    ∃ front word back, words = front ++ word :: back ∧ (wordLines front).utf8ByteSize ≤ room ∧
      room < (wordLines (front ++ [word])).utf8ByteSize := by
  induction words using List.reverseRecOn with
  | nil => cases hover
  | append_singleton words word ih =>
    by_cases hfits : (wordLines words).utf8ByteSize ≤ room
    · exact ⟨words, word, [], rfl, hfits, hover⟩
    · obtain ⟨front, first, back, rfl, hfront, hfirst⟩ := ih (Nat.lt_of_not_le hfits)
      exact ⟨front, first, back ++ [word], by simp, hfront, hfirst⟩

namespace Scanner

variable {a : Automaton}

/-- What is passed in two parts is passed one part after the other. -/
theorem Passes.exists_split {s last : Scanner a} {front back : List (Token × String)}
    (h : s.Passes (front ++ back) last) : ∃ middle, s.Passes front middle ∧
      middle.Passes back last := by
  induction front generalizing s with
  | nil => exact ⟨s, .nil s, h⟩
  | cons pair front ih =>
    cases h with
    | cons hnext hlexeme hrest =>
      obtain ⟨middle, hfront, hback⟩ := ih hrest
      exact ⟨middle, .cons hnext hlexeme hfront, hback⟩

/-- The token of a word of a source is answered behind those of the words in front of it. -/
theorem exists_nextToken_of_word {source : List UInt8} {front back : List Word} {word : Word}
    (hspells : (a.scan source).Spells (a.reading source).words)
    (hwords : (a.reading source).words = front ++ word :: back) :
    ∃ passed token lexeme middle later, (ofSource a source).Passes passed middle ∧
      String.join ((passed.map Call.give).map Call.text) = wordLines front ∧
      middle.nextToken = (.ok (some token), later) ∧ later.lexeme? token.id = some lexeme ∧
      String.join (linePieces token.category lexeme) = word.line ∧
      (ofSource a source).Passes
        (((a.scan source).tokens.zip (a.lexemes source)).take (front.length + 1)) later := by
  have hlines : ((a.scan source).tokens.zip (a.lexemes source)).map (Call.text ∘ Call.give) =
      front.map Word.line ++ word.line :: back.map Word.line := by
    rw [← List.map_map, Automaton.lexemes, hspells.map_text, hwords, List.map_append,
      List.map_cons]
  obtain ⟨passed, ahead, hpairs, hpassed, hahead⟩ := List.map_eq_append_iff.mp hlines
  obtain ⟨⟨token, lexeme⟩, left, rfl, hline, -⟩ := List.map_eq_cons_iff.mp hahead
  have hlength : passed.length = front.length := by
    simpa using congrArg List.length hpassed
  obtain ⟨last, hall, -⟩ := passes_zip hspells
  rw [hpairs, ← List.singleton_append, ← List.append_assoc] at hall
  obtain ⟨later, hlater, -⟩ := hall.exists_split
  obtain ⟨middle, hmiddle, htoken⟩ := hlater.exists_split
  have htext : String.join ((passed.map Call.give).map Call.text) = wordLines front := by
    rw [List.map_map, hpassed, wordLines]
  rw [hpairs, ← hlength, List.take_length_add_append, List.take_succ_cons, List.take_zero]
  cases htoken with
  | cons hnext hlexeme hrest =>
    cases hrest
    exact ⟨passed, token, lexeme, middle, later, hmiddle, htext, hnext, hlexeme, hline, hlater⟩

end Scanner

namespace Automaton

variable {a : Automaton} {source : List UInt8} {room : Nat} {flushFails : Bool}

/-- Lists a source on an empty page with room for so many bytes. -/
def listOnPage (a : Automaton) (source : List UInt8) (room : Nat) (flushFails : Bool) :
    Feeding a Page PageError :=
  a.listTo (.page (some room) flushFails) source {}

/-- A page without room for all lines has a front of the listing. Up to the first line that does not
fit, the lines are on it, and the scanner has passed the tokens up to that of this line. -/
theorem listOnPage_lines_overflow (hspells : (a.scan source).Spells (a.reading source).words)
    (hover : room < (wordLines (a.reading source).words).utf8ByteSize) :
    (a.listOnPage source room flushFails).report = .error .noRoom ∧
      (a.listOnPage source room flushFails).state.flushes = 0 ∧
      (∃ left, (a.listOnPage source room flushFails).state.text ++ left = a.listing source) ∧
      ∃ front word back, (a.reading source).words = front ++ word :: back ∧
        (wordLines front).utf8ByteSize ≤ room ∧
        room < (wordLines (front ++ [word])).utf8ByteSize ∧
        (Scanner.ofSource a source).Passes
          (((a.scan source).tokens.zip (a.lexemes source)).take (front.length + 1))
          (a.listOnPage source room flushFails).scanner := by
  -- the lines in front of the first one that does not fit are written as on a page without end
  obtain ⟨front, word, back, hwords, hfront, hfirst⟩ := exists_first_overflow hover
  obtain ⟨passed, token, lexeme, middle, later, hpassed, htext, hnext, hlexeme, hline, hlater⟩ :=
    Scanner.exists_nextToken_of_word hspells hwords
  have hlong : room < (wordLines front ++
      String.join (linePieces token.category lexeme)).utf8ByteSize := by
    rw [hline]
    rwa [wordLines_append, wordLines_singleton] at hfirst
  obtain ⟨written, missing, hwritten, hrefused⟩ :=
    Writer.writeAll_page_overflow flushFails ⟨wordLines front, 0⟩ hfront hlong
  have haccept : (Consumer.listing (.page (some room) flushFails)).accept token lexeme
      ⟨wordLines front, 0⟩ = .error .noRoom ⟨wordLines front ++ written, 0⟩ := hrefused
  have hfed : a.listOnPage source room flushFails =
      ⟨.error .noRoom, later, ⟨wordLines front ++ written, 0⟩⟩ := by
    rw [listOnPage, listTo, Scanner.feed,
      hpassed.feedFrom_eq (Consumer.takes_empty_page htext hfront),
      Scanner.feedFrom_of_token hnext hlexeme, haccept]
  rw [hfed]
  refine ⟨rfl, rfl, ?_, front, word, back, hwords, hfront, hfirst, hlater⟩
  refine ⟨missing ++ (wordLines back ++
    (a.scan source).error.elim "" LexicalError.message), ?_⟩
  calc wordLines front ++ written ++ (missing ++ (wordLines back ++
        (a.scan source).error.elim "" LexicalError.message))
      = wordLines front ++ ((written ++ missing) ++ wordLines back) ++
          (a.scan source).error.elim "" LexicalError.message := by
        simp only [String.append_assoc]
    _ = a.listing source := by
        rw [hwritten, hline, ← wordLines_cons, ← wordLines_append, ← hwords]
        rfl

/-- A page with room for all lines has them, and then there is the end of the source or the
failure. -/
theorem exists_listOnPage_eq (hspells : (a.scan source).Spells (a.reading source).words)
    (hfits : (wordLines (a.reading source).words).utf8ByteSize ≤ room) :
    ∃ last final : Scanner a, last.Yields [] (a.scan source).error final ∧
      a.listOnPage source room flushFails =
        last.feedFrom (.listing (.page (some room) flushFails)) (a.scan source).tokens.length
          ⟨wordLines (a.reading source).words, 0⟩ := by
  have htext : String.join ((((a.scan source).tokens.zip (a.lexemes source)).map
      Call.give).map Call.text) = wordLines (a.reading source).words := by
    rw [lexemes, hspells.map_text, wordLines]
  exact exists_listTo_eq_feedFrom hspells (Consumer.takes_empty_page htext hfits)

/-- A listing without a message is on the page if it fits. -/
theorem listOnPage_of_end (hspells : (a.scan source).Spells (a.reading source).words)
    (herror : (a.scan source).error = none)
    (hfits : (a.listing source).utf8ByteSize ≤ room) :
    (a.listOnPage source room flushFails).report = .ok ⟨(a.scan source).tokens.length, none⟩ ∧
      (a.listOnPage source room flushFails).state = ⟨a.listing source, 0⟩ := by
  have hlines : a.listing source = wordLines (a.reading source).words := by
    rw [listing, herror, listingText, Option.elim_none, String.append_empty]
  rw [hlines] at hfits ⊢
  obtain ⟨last, final, hlast, hfed⟩ := exists_listOnPage_eq hspells hfits
  rw [herror] at hlast
  cases hlast with
  | ended hnext =>
    rw [hfed, Scanner.feedFrom_of_end hnext]
    exact ⟨rfl, rfl⟩

/-- A listing with a message is on the page and flushed if it fits. -/
theorem listOnPage_of_error {e : LexicalError}
    (hspells : (a.scan source).Spells (a.reading source).words)
    (herror : (a.scan source).error = some e)
    (hfits : (a.listing source).utf8ByteSize ≤ room) :
    (a.listOnPage source room flushFails).report =
        (if flushFails then .error .flush else .ok ⟨(a.scan source).tokens.length, some e⟩) ∧
      (a.listOnPage source room flushFails).state = ⟨a.listing source, 1⟩ := by
  have hlisting : a.listing source = wordLines (a.reading source).words ++ e.message := by
    rw [listing, herror, listingText, Option.elim_some]
  rw [hlisting] at hfits ⊢
  have hlines : (wordLines (a.reading source).words).utf8ByteSize ≤ room := by
    rw [String.utf8ByteSize_append] at hfits
    omega
  obtain ⟨last, final, hlast, hfed⟩ := exists_listOnPage_eq hspells hlines
  rw [herror] at hlast
  cases hlast with
  | failed hnext =>
    have hmessage := @Consumer.error_page_fits room flushFails
      ⟨wordLines (a.reading source).words, 0⟩ e hfits
    rw [hfed, Scanner.feedFrom_of_error hnext, hmessage]
    cases flushFails <;> exact ⟨rfl, rfl⟩

/-- A page with room for all lines, but not for the message, has a front of the listing. -/
theorem listOnPage_message_overflow (hspells : (a.scan source).Spells (a.reading source).words)
    (hfits : (wordLines (a.reading source).words).utf8ByteSize ≤ room)
    (hover : room < (a.listing source).utf8ByteSize) :
    (a.listOnPage source room flushFails).report = .error .noRoom ∧
      (a.listOnPage source room flushFails).state.flushes = 0 ∧
      ∃ left, (a.listOnPage source room flushFails).state.text ++ left = a.listing source := by
  obtain ⟨last, final, hlast, hfed⟩ := exists_listOnPage_eq hspells hfits
  rw [listing, listingText] at hover ⊢
  cases herror : (a.scan source).error with
  | none =>
    rw [herror, Option.elim_none, String.append_empty] at hover
    omega
  | some e =>
    rw [herror] at hlast hover
    cases hlast with
    | failed hnext =>
      obtain ⟨written, missing, hwritten, hrefused⟩ := Consumer.error_page_overflow flushFails
        ⟨wordLines (a.reading source).words, 0⟩ hfits hover
      rw [hfed, Scanner.feedFrom_of_error hnext, hrefused]
      refine ⟨rfl, rfl, missing, ?_⟩
      rw [String.append_assoc, hwritten, Option.elim_some]

/-- A listing that fits, on a page that can be flushed behind a message, is taken. -/
theorem listOnPage_of_fits (hspells : (a.scan source).Spells (a.reading source).words)
    (hfits : (a.listing source).utf8ByteSize ≤ room)
    (hflush : (a.scan source).error.isSome → flushFails = false) :
    (a.listOnPage source room flushFails).report =
        .ok ⟨(a.scan source).tokens.length, (a.scan source).error⟩ ∧
      (a.listOnPage source room flushFails).state =
        ⟨a.listing source, if (a.scan source).error.isSome then 1 else 0⟩ := by
  cases herror : (a.scan source).error with
  | none => exact listOnPage_of_end hspells herror hfits
  | some e =>
    obtain rfl : flushFails = false := hflush (herror ▸ rfl)
    exact listOnPage_of_error hspells herror hfits

/-- A message that fits, on a page that cannot be flushed, is on the page all the same. -/
theorem listOnPage_flush_fails (hspells : (a.scan source).Spells (a.reading source).words)
    (hfits : (a.listing source).utf8ByteSize ≤ room) (herror : (a.scan source).error.isSome)
    (hfails : flushFails) :
    (a.listOnPage source room flushFails).report = .error .flush ∧
      (a.listOnPage source room flushFails).state = ⟨a.listing source, 1⟩ := by
  obtain ⟨e, hsome⟩ := Option.isSome_iff_exists.mp herror
  subst hfails
  exact listOnPage_of_error hspells hsome hfits

/-- A listing that is taken fits, and the page could be flushed behind its message. -/
theorem fits_of_listOnPage_eq_ok (hspells : (a.scan source).Spells (a.reading source).words)
    {delivery : Delivery} (h : (a.listOnPage source room flushFails).report = .ok delivery) :
    (a.listing source).utf8ByteSize ≤ room ∧
      ((a.scan source).error.isSome → flushFails = false) := by
  have hlines : (wordLines (a.reading source).words).utf8ByteSize ≤ room := by
    by_contra hover
    rw [(listOnPage_lines_overflow hspells (Nat.lt_of_not_le hover)).1] at h
    cases h
  have hmessage : (a.listing source).utf8ByteSize ≤ room := by
    by_contra hover
    rw [(listOnPage_message_overflow hspells hlines (Nat.lt_of_not_le hover)).1] at h
    cases h
  refine ⟨hmessage, fun herror => ?_⟩
  by_contra hfails
  rw [(listOnPage_flush_fails hspells hmessage herror (Bool.of_not_eq_false hfails)).1] at h
  cases h

/-- While numbers last, a listing on a page is taken if and only if there is room for it and the
page can be flushed behind a message. Then the page has it, and was flushed once if there is a
message and never otherwise. If there is no room for some line, the page refuses the first such
line: it has a front of the listing, was not flushed, and the scanner has passed the tokens up to
that of this line. If there is only no room for the message, the page has a front of the listing,
too, and was not flushed. -/
theorem listOnPage_fits_iff (a : Automaton) (source : List UInt8) (room : Nat) (flushFails : Bool)
    (hsize : (a.lexemes source).eraseDups.length ≤ UInt32.size) :
    (a.scan source).Spells (a.reading source).words ∧
    ∃ report scanner page, a.listOnPage source room flushFails = ⟨report, scanner, page⟩ ∧
      ((∃ delivery, report = .ok delivery) ↔ (a.listing source).utf8ByteSize ≤ room ∧
        ((a.scan source).error.isSome → flushFails = false)) ∧
      (∀ delivery, report = .ok delivery →
        delivery = ⟨(a.scan source).tokens.length, (a.scan source).error⟩ ∧
          page = ⟨a.listing source, if (a.scan source).error.isSome then 1 else 0⟩) ∧
      (room < (wordLines (a.reading source).words).utf8ByteSize →
        report = .error .noRoom ∧ page.flushes = 0 ∧
          (∃ left, page.text ++ left = a.listing source) ∧
          ∃ front word back, (a.reading source).words = front ++ word :: back ∧
            (wordLines front).utf8ByteSize ≤ room ∧
            room < (wordLines (front ++ [word])).utf8ByteSize ∧
            (Scanner.ofSource a source).Passes
              (((a.scan source).tokens.zip (a.lexemes source)).take (front.length + 1)) scanner) ∧
      ((wordLines (a.reading source).words).utf8ByteSize ≤ room →
        room < (a.listing source).utf8ByteSize →
        report = .error .noRoom ∧ page.flushes = 0 ∧
          ∃ left, page.text ++ left = a.listing source) ∧
      ((a.listing source).utf8ByteSize ≤ room → (a.scan source).error.isSome → flushFails →
        report = .error .flush ∧ page = ⟨a.listing source, 1⟩) := by
  have hspells := spells_of_length_le hsize
  refine ⟨hspells, _, _, _, rfl, ?_, ?_, listOnPage_lines_overflow hspells,
    listOnPage_message_overflow hspells, listOnPage_flush_fails hspells⟩
  · constructor
    · rintro ⟨delivery, hreport⟩
      exact fits_of_listOnPage_eq_ok hspells hreport
    · rintro ⟨hfits, hflush⟩
      exact ⟨_, (listOnPage_of_fits hspells hfits hflush).1⟩
  · intro delivery hreport
    obtain ⟨hfits, hflush⟩ := fits_of_listOnPage_eq_ok hspells hreport
    obtain ⟨hdelivery, hpage⟩ := listOnPage_of_fits hspells hfits hflush
    exact ⟨Except.ok.inj (hreport.symm.trans hdelivery), hpage⟩

/-- A number and a failure behind it take 52 bytes. A page with room for them has them and is
flushed; with room for the message but not for the flush, or with less room than the line needs, the
listing is refused. -/
theorem listOnPage_fits_iff_numerals :
    (numerals.lexemes numeralText).eraseDups.length ≤ UInt32.size ∧
      (∃ scanner, numerals.listOnPage numeralText 52 false = ⟨.ok ⟨1, some ⟨3⟩⟩, scanner,
        ⟨"INTEGER_LITERAL 11\nLexer Error at character number 3", 1⟩⟩) ∧
      (numerals.listOnPage numeralText 52 true).report = .error .flush ∧
      (numerals.listOnPage numeralText 18 false).report = .error .noRoom ∧
      (numerals.listOnPage numeralText 18 false).state.flushes = 0 := by
  have hwords : (numerals.reading numeralText).words = [⟨.integerLiteral, [0x31, 0x31]⟩] := by
    decide +kernel
  have herror : (numerals.scan numeralText).error = some ⟨3⟩ := by
    decide +kernel
  have hlisting : numerals.listing numeralText =
      "INTEGER_LITERAL 11\nLexer Error at character number 3" := by
    rw [listing, hwords, herror]
    decide
  have hlines : (wordLines (numerals.reading numeralText).words).utf8ByteSize = 19 := by
    rw [hwords]
    decide
  have hsize : (numerals.lexemes numeralText).eraseDups.length ≤ UInt32.size := by
    rw [lexemes, hwords]
    decide
  have hwide : (numerals.listing numeralText).utf8ByteSize ≤ 52 := by
    rw [hlisting]
    decide
  refine ⟨hsize, ?_, ?_, ?_⟩
  · obtain ⟨hspells, report, scanner, page, hlisted, hok, hpage, -⟩ :=
      listOnPage_fits_iff numerals numeralText 52 false hsize
    obtain ⟨delivery, rfl⟩ := hok.mpr ⟨hwide, fun _ => rfl⟩
    obtain ⟨rfl, rfl⟩ := hpage delivery rfl
    have hone : (numerals.scan numeralText).tokens.length = 1 := by
      rw [← List.length_map, hspells, List.length_map, hwords]
      rfl
    refine ⟨scanner, ?_⟩
    rw [hlisted, hone, herror, hlisting]
    rfl
  · obtain ⟨-, report, scanner, page, hlisted, -, -, -, -, hflush⟩ :=
      listOnPage_fits_iff numerals numeralText 52 true hsize
    rw [hlisted]
    exact (hflush hwide (herror ▸ rfl) rfl).1
  · obtain ⟨-, report, scanner, page, hlisted, -, -, hrefused, -⟩ :=
      listOnPage_fits_iff numerals numeralText 18 false hsize
    rw [hlisted]
    have hover := hrefused (by rw [hlines]; decide)
    exact ⟨hover.1, hover.2.1⟩

end Automaton

end TableLexer
