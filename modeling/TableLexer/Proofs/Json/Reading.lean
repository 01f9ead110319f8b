import Mathlib.Data.List.TakeDrop
import TableLexer.Proofs.Json.Grammar

/-!
# JSON read by its grammar

Every spelling of a value is read as the value, and what follows it is left. A number has no end of
its own, so the bytes behind it must not go on with it; everything else closes itself. The fuel of
the reader suffices when there is more of it than there are bytes.
-/

namespace TableLexer.Json

/-! ### Blank bytes -/

/-- The bytes that are skipped are the blank ones. -/
theorem isBlank_iff {b : UInt8} : isBlank b = true ↔ b ∈ blanks := by
  simp only [isBlank, blanks, Bool.or_eq_true, decide_eq_true_eq, List.mem_cons, List.not_mem_nil,
    or_false, or_assoc]

/-- Blank bytes in front are dropped. -/
theorem skipBlank_append {lead : List UInt8} (h : Blank lead) (rest : List UInt8) :
    skipBlank (lead ++ rest) = skipBlank rest :=
  List.dropWhile_append_of_pos fun b hb => isBlank_iff.mpr (h b hb)

/-- A byte that is not blank stays in front. -/
theorem skipBlank_cons {b : UInt8} (h : b ∉ blanks) (rest : List UInt8) :
    skipBlank (b :: rest) = b :: rest :=
  List.dropWhile_cons_of_neg (by rwa [isBlank_iff])

/-! ### Strings -/

/-- The pieces of a string are read up to and with the closing quote. -/
theorem SpellsPieces.text_eq {found : Text} {inner : List UInt8} (h : SpellsPieces found inner)
    (rest : List UInt8) : text (inner ++ code '"' :: rest) = some (found, rest) := by
  induction h with
  | nil => exact text_quote rest
  | cons hpiece _ ih =>
    rw [List.append_assoc]
    cases hpiece with
    | byte hquote hslash hcontrol =>
      rw [List.singleton_append, text_byte hquote hslash hcontrol, ih]
      rfl
    | short hunit =>
      rw [List.cons_append, List.singleton_append, text_short hunit, ih]
      rfl
    | digits hunit =>
      simp only [List.cons_append, List.nil_append]
      rw [text_digits hunit, ih]
      rfl

/-! ### Numbers -/

/-- Whether some bytes cannot go on with a number that stands in front of them. -/
def EndsNumber (rest : List UInt8) : Prop :=
  ∀ b ∈ rest.head?, isDigit b = false ∧ b ≠ code '.' ∧ b ∉ [code 'e', code 'E']

/-- Digits are read up to the first byte that is none. -/
theorem Digits.digits_eq {run rest : List UInt8} (h : Digits run)
    (hend : ∀ b ∈ rest.head?, isDigit b = false) : digits (run ++ rest) = some (run, rest) := by
  have hrest : rest.takeWhile isDigit = [] ∧ rest.dropWhile isDigit = rest := by
    cases rest with
    | nil => exact ⟨rfl, rfl⟩
    | cons b rest => simp [hend b rfl]
  have hspan : (run ++ rest).span isDigit = (run, rest) := by
    rw [List.span_eq_takeWhile_dropWhile, List.takeWhile_append_of_pos h.digit,
      List.dropWhile_append_of_pos h.digit, hrest.1, hrest.2, List.append_nil]
  obtain ⟨first, more, rfl⟩ := List.exists_cons_of_ne_nil h.ne_nil
  simp only [digits, hspan]

/-- Digits open with a digit. -/
theorem Digits.exists_cons {run : List UInt8} (h : Digits run) :
    ∃ first more, run = first :: more ∧ isDigit first = true := by
  obtain ⟨first, more, rfl⟩ := List.exists_cons_of_ne_nil h.ne_nil
  exact ⟨first, more, rfl, h.digit first List.mem_cons_self⟩

/-- A byte that is a digit is not a byte that is none. -/
theorem ne_of_isDigit {b c : UInt8} (hb : isDigit b = true) (hc : isDigit c = false) : b ≠ c := by
  rintro rfl
  rw [hb] at hc
  cases hc

/-- A whole part is read off the front of bytes that do not go on with a digit. -/
theorem Whole.whole_eq {run rest : List UInt8} (h : Whole run)
    (hend : ∀ b ∈ rest.head?, isDigit b = false) : whole (run ++ rest) = some (run, rest) := by
  obtain ⟨first, more, rfl, -⟩ := h.digits.exists_cons
  rw [List.cons_append, whole]
  split
  · next hzero =>
    subst hzero
    rw [h.leading more rfl, List.nil_append]
  · exact h.digits.digits_eq hend

/-- A fraction is read off the front of bytes that go on neither with a digit nor with a point. -/
theorem Fraction.fraction_eq {point rest : List UInt8} (h : Fraction point)
    (hend : ∀ b ∈ rest.head?, isDigit b = false ∧ b ≠ code '.') :
    fraction (point ++ rest) = some (point, rest) := by
  cases h with
  | missing =>
    cases rest with
    | nil => rfl
    | cons b rest => exact if_neg (hend b rfl).2
  | point hdigits =>
    rw [List.cons_append, fraction, if_pos rfl, hdigits.digits_eq fun b hb => (hend b hb).1]
    rfl

/-- A sign, or none, is read off the front of digits. -/
theorem exponentSign_eq {mark run : List UInt8} (hmark : mark ∈ [[], [code '+'], [code '-']])
    (hrun : Digits run) (rest : List UInt8) :
    exponentSign (mark ++ (run ++ rest)) = (mark, run ++ rest) := by
  simp only [List.mem_cons, List.not_mem_nil, or_false] at hmark
  rcases hmark with rfl | rfl | rfl
  · obtain ⟨first, more, rfl, hfirst⟩ := hrun.exists_cons
    have hplus : first ≠ code '+' := ne_of_isDigit hfirst (by decide)
    have hminus : first ≠ code '-' := ne_of_isDigit hfirst (by decide)
    simp [exponentSign, hplus, hminus]
  · rfl
  · rfl

/-- An exponent is read off the front of bytes that do not go on with the number. -/
theorem Exponent.exponent_eq {power rest : List UInt8} (h : Exponent power)
    (hend : EndsNumber rest) : exponent (power ++ rest) = some (power, rest) := by
  cases h with
  | missing =>
    cases rest with
    | nil => rfl
    | cons b rest =>
      have hletter := (hend b rfl).2.2
      simp only [List.mem_cons, List.not_mem_nil, or_false, not_or] at hletter
      simp [exponent, hletter]
  | @power letter mark run hletter hmark hdigits =>
    have hsome : (letter = code 'e' || letter = code 'E') = true := by simpa using hletter
    rw [List.cons_append, exponent, if_pos hsome, List.append_assoc,
      exponentSign_eq hmark hdigits]
    simp only [hdigits.digits_eq fun b hb => (hend b hb).1]
    rfl

/-- A minus sign, or none, is read off the front of digits. -/
theorem sign_eq {minus run : List UInt8} (hminus : minus ∈ [[], [code '-']]) (hrun : Digits run)
    (rest : List UInt8) : sign (minus ++ (run ++ rest)) = (minus, run ++ rest) := by
  simp only [List.mem_cons, List.not_mem_nil, or_false] at hminus
  rcases hminus with rfl | rfl
  · obtain ⟨first, more, rfl, hfirst⟩ := hrun.exists_cons
    exact if_neg (ne_of_isDigit hfirst (by decide))
  · rfl

/-- An exponent, or what follows a number without one, does not go on with a fraction. -/
theorem Exponent.head {power rest : List UInt8} (h : Exponent power) (hend : EndsNumber rest) :
    ∀ b ∈ (power ++ rest).head?, isDigit b = false ∧ b ≠ code '.' := by
  cases h with
  | missing => exact fun b hb => ⟨(hend b hb).1, (hend b hb).2.1⟩
  | @power letter mark run hletter =>
    rintro b ⟨⟩
    revert letter
    decide +kernel

/-- A fraction, or what follows a whole part without one, does not go on with the whole part. -/
theorem Fraction.head {point rest : List UInt8} (h : Fraction point)
    (hend : ∀ b ∈ rest.head?, isDigit b = false ∧ b ≠ code '.') :
    ∀ b ∈ (point ++ rest).head?, isDigit b = false := by
  cases h with
  | missing => exact fun b hb => (hend b hb).1
  | point =>
    rintro b ⟨⟩
    decide

/-- The parts of a number are read as they stand. -/
theorem number_of_parts {minus run point power rest : List UInt8}
    (hminus : minus ∈ [[], [code '-']]) (hwhole : Whole run) (hpoint : Fraction point)
    (hpower : Exponent power) (hend : EndsNumber rest) :
    number (minus ++ run ++ point ++ power ++ rest) =
      some (if minus.isEmpty && point.isEmpty && power.isEmpty then .natural (decimal run)
        else .number (minus ++ run ++ point ++ power), rest) := by
  have hpower' := hpower.head hend
  have hpoint' := hpoint.head hpower'
  simp only [List.append_assoc]
  rw [number, sign_eq hminus hwhole.digits]
  simp only [hwhole.whole_eq hpoint', Option.bind_eq_bind, Option.bind_some,
    hpoint.fraction_eq hpower', hpower.exponent_eq hend]
  split
  · rfl
  · simp only [List.append_assoc]
    rfl

/-- A spelling of a number is read as the number. -/
theorem SpellsNumber.number_eq {found : Value} {text rest : List UInt8}
    (h : SpellsNumber found text) (hend : EndsNumber rest) :
    number (text ++ rest) = some (found, rest) := by
  cases h with
  | natural hwhole =>
    simpa using number_of_parts List.mem_cons_self hwhole .missing .missing hend
  | other hminus hwhole hpoint hpower hsome =>
    rw [number_of_parts hminus hwhole hpoint hpower hend, if_neg]
    simp only [Bool.and_eq_true, List.isEmpty_iff]
    rintro ⟨⟨hminus', hpoint'⟩, hpower'⟩
    rcases hsome with hne | hne | hne
    · exact hne hminus'
    · exact hne hpoint'
    · exact hne hpower'

/-- A number opens with a minus sign or a digit. -/
theorem SpellsNumber.exists_cons {found : Value} {text : List UInt8}
    (h : SpellsNumber found text) :
    ∃ first more, text = first :: more ∧ (first = code '-' ∨ isDigit first = true) := by
  cases h with
  | natural hwhole =>
    obtain ⟨first, more, rfl, hfirst⟩ := hwhole.digits.exists_cons
    exact ⟨first, more, rfl, .inr hfirst⟩
  | other hminus hwhole =>
    obtain ⟨first, more, rfl, hfirst⟩ := hwhole.digits.exists_cons
    simp only [List.mem_cons, List.not_mem_nil, or_false] at hminus
    rcases hminus with rfl | rfl
    · exact ⟨first, _, rfl, .inr hfirst⟩
    · exact ⟨code '-', _, rfl, .inl rfl⟩

/-! ### Lists and objects -/

/-- A number ends at a blank byte, and at what it ends at without blank bytes in front. -/
theorem EndsNumber.append {trail rest : List UInt8} (htrail : Blank trail)
    (h : EndsNumber rest) : EndsNumber (trail ++ rest) := by
  cases trail with
  | nil => exact h
  | cons b trail =>
    rintro c ⟨⟩
    have hblank : ∀ b ∈ blanks,
        isDigit b = false ∧ b ≠ code '.' ∧ b ∉ [code 'e', code 'E'] := by decide +kernel
    exact hblank b (htrail b List.mem_cons_self)

/-- A number ends at a comma and at a closing bracket. -/
theorem EndsNumber.cons {b : UInt8} (h : b ∈ [code ',', code ']', code '\x7d'])
    (rest : List UInt8) : EndsNumber (b :: rest) := by
  rintro c ⟨⟩
  revert b
  decide +kernel

/-- Whether a reader reads all spellings that are shorter than the bound, behind blank bytes. -/
def ReadsBelow {α : Type} (bound : Nat) (spells : α → List UInt8 → Prop) (item : Reader α) : Prop :=
  ∀ {found : α} {lead text rest : List UInt8}, spells found text → text.length < bound →
    Blank lead → EndsNumber rest → item (lead ++ text ++ rest) = some (found, rest)

/-- Whether all spellings open with a byte that is not blank and does not close what they are
in. -/
def OpenWithout {α : Type} (close : UInt8) (spells : α → List UInt8 → Prop) : Prop :=
  ∀ {found : α} {text : List UInt8}, spells found text →
    ∃ first more, text = first :: more ∧ first ∉ blanks ∧ first ≠ close

section Sequence

variable {α : Type} {spells : α → List UInt8 → Prop} {item : Reader α} {bound : Nat} {close : UInt8}

/-- A closing bracket is not blank. -/
theorem not_mem_blanks_of_close (hclose : close ∈ [code ']', code '\x7d']) : close ∉ blanks := by
  revert close
  decide +kernel

/-- Items are read up to and with the byte that closes them. -/
theorem items_of_listed (hitem : ReadsBelow bound spells item)
    (hclose : close ∈ [code ']', code '\x7d']) {found : List α} {inner : List UInt8}
    (h : Listed spells found inner) (hbound : inner.length < bound) {fuel : Nat}
    (hfuel : inner.length < fuel) (rest : List UInt8) :
    items item close fuel (inner ++ close :: rest) = some (found, rest) := by
  -- by induction on the items: each takes one from the fuel, and a byte at least from the text
  induction h generalizing fuel with
  | @last x lead text trail hlead hspells htrail =>
    obtain ⟨fuel, rfl⟩ : ∃ n, fuel = n + 1 := ⟨fuel - 1, by omega⟩
    simp only [List.length_append] at hbound
    have hends : EndsNumber (trail ++ close :: rest) :=
      .append htrail (.cons (List.mem_cons_of_mem _ hclose) rest)
    have hread := hitem hspells (by omega) hlead hends
    have hskip : skipBlank (trail ++ close :: rest) = close :: rest := by
      rw [skipBlank_append htrail, skipBlank_cons (not_mem_blanks_of_close hclose)]
    rw [List.append_assoc _ trail]
    exact items_of_close hread hskip
  | @cons x xs lead text trail later hlead hspells htrail _ ih =>
    obtain ⟨fuel, rfl⟩ : ∃ n, fuel = n + 1 := ⟨fuel - 1, by omega⟩
    simp only [List.length_append, List.length_cons] at hbound hfuel
    have hends : EndsNumber (trail ++ code ',' :: (later ++ close :: rest)) :=
      .append htrail (.cons List.mem_cons_self _)
    have hread := hitem hspells (by omega) hlead hends
    have hskip : skipBlank (trail ++ code ',' :: (later ++ close :: rest)) =
        code ',' :: (later ++ close :: rest) := by
      rw [skipBlank_append htrail, skipBlank_cons (by decide)]
    have hcomma : code ',' ≠ close := by
      rintro rfl
      exact absurd hclose (by decide)
    have hmore : items item close fuel (later ++ close :: rest) = some (xs, rest) :=
      ih (by omega) (by omega)
    rw [List.append_assoc, List.cons_append, List.append_assoc _ trail]
    exact items_of_comma hread hskip hcomma hmore

/-- Items open with a byte that is not blank and closes nothing, behind blank bytes without which
they are spelled as well. -/
theorem Listed.exists_open (hopen : OpenWithout close spells) {found : List α}
    {inner : List UInt8} (h : Listed spells found inner) :
    ∃ lead first more, inner = lead ++ first :: more ∧ Blank lead ∧
      first ∉ blanks ∧ first ≠ close ∧ Listed spells found (first :: more) := by
  cases h with
  | @last x lead text trail hlead hspells htrail =>
    obtain ⟨first, more, rfl, hsolid, hother⟩ := hopen hspells
    refine ⟨lead, first, more ++ trail, by simp, hlead, hsolid, hother, ?_⟩
    exact .last blank_nil hspells htrail
  | @cons x xs lead text trail later hlead hspells htrail hlater =>
    obtain ⟨first, more, rfl, hsolid, hother⟩ := hopen hspells
    refine ⟨lead, first, more ++ trail ++ code ',' :: later, by simp, hlead, hsolid, hother, ?_⟩
    exact .cons blank_nil hspells htrail hlater

/-- What stands between brackets is read up to and with the closing one. -/
theorem itemsOrNone_of_enclosed (hitem : ReadsBelow bound spells item)
    (hopen : OpenWithout close spells) (hclose : close ∈ [code ']', code '\x7d'])
    {found : List α} {inner : List UInt8} (h : Enclosed spells found inner)
    (hbound : inner.length < bound) {fuel : Nat} (hfuel : inner.length < fuel)
    (rest : List UInt8) :
    itemsOrNone item close fuel (inner ++ close :: rest) = some (found, rest) := by
  cases h with
  | empty hrun =>
    have hskip : skipBlank (inner ++ close :: rest) = close :: rest := by
      rw [skipBlank_append hrun, skipBlank_cons (not_mem_blanks_of_close hclose)]
    exact itemsOrNone_of_close hskip
  | listed hlisted =>
    obtain ⟨lead, first, more, rfl, hlead, hsolid, hother, hsame⟩ := hlisted.exists_open hopen
    simp only [List.length_append] at hbound hfuel
    have hskip : skipBlank (lead ++ first :: more ++ close :: rest) =
        first :: (more ++ close :: rest) := by
      rw [List.append_assoc, skipBlank_append hlead, List.cons_append, skipBlank_cons hsolid]
    rw [itemsOrNone_of_ne hskip hother]
    exact items_of_listed hitem hclose hsame (by omega) (by omega) rest

end Sequence

/-- Members are read when their values are. -/
theorem readsBelow_member {bound : Nat} {spells : Value → List UInt8 → Prop}
    {reader : Reader Value} (hreader : ReadsBelow bound spells reader) :
    ReadsBelow bound (SpellsMember spells) (member reader) := by
  intro found front whole rest h hbound hfront hends
  cases h with
  | @pair key value name trail lead text hkey htrail hlead hvalue =>
    cases hkey with
    | @quoted inner hpieces =>
      simp only [List.length_append, List.length_cons] at hbound
      have hquote : skipBlank (front ++ (code '"' :: (inner ++ [code '"']) ++ trail ++
          code ':' :: (lead ++ text)) ++ rest) =
            code '"' :: (inner ++ code '"' :: (trail ++ code ':' :: (lead ++ text ++ rest))) := by
        rw [List.append_assoc, skipBlank_append hfront]
        simp [skipBlank_cons (show code '"' ∉ blanks by decide)]
      have hcolon : skipBlank (trail ++ code ':' :: (lead ++ text ++ rest)) =
          code ':' :: (lead ++ text ++ rest) := by
        rw [skipBlank_append htrail, skipBlank_cons (by decide)]
      have hread : reader (lead ++ text ++ rest) = some (value, rest) :=
        hreader hvalue (by omega) hlead hends
      exact member_of_parts hquote (hpieces.text_eq _) hcolon hread

/-- Members open with a quote, and so with no closing brace. -/
theorem openWithout_spellsMember (spells : Value → List UInt8 → Prop) :
    OpenWithout (code '\x7d') (SpellsMember spells) := by
  rintro found whole ⟨⟨-⟩, -, -, -⟩
  exact ⟨code '"', _, rfl, by decide, by decide⟩

/-! ### Values -/

/-- The first byte of a number is neither blank nor a closing bracket. -/
theorem not_mem_blanks_of_number {b : UInt8} (h : b = code '-' ∨ isDigit b = true) :
    b ∉ blanks ∧ b ≠ code ']' := by
  have hother : ∀ c ∈ code ']' :: blanks, c ≠ code '-' ∧ isDigit c = false := by
    decide +kernel
  have hb : b ∉ code ']' :: blanks := by
    intro hmem
    obtain ⟨hminus, hdigit⟩ := hother b hmem
    simp [hminus, hdigit] at h
  rw [List.mem_cons, not_or] at hb
  exact ⟨hb.2, hb.1⟩

/-- Values do not open with a closing bracket. -/
theorem openWithout_spells : OpenWithout (code ']') Spells := by
  intro found whole h
  cases h with
  | isNull => exact ⟨code 'n', _, rfl, by decide, by decide⟩
  | isTrue => exact ⟨code 't', _, rfl, by decide, by decide⟩
  | isFalse => exact ⟨code 'f', _, rfl, by decide, by decide⟩
  | number hnumber =>
    obtain ⟨first, more, rfl, hfirst⟩ := hnumber.exists_cons
    exact ⟨first, more, rfl, not_mem_blanks_of_number hfirst⟩
  | string htext =>
    cases htext
    exact ⟨code '"', _, rfl, by decide, by decide⟩
  | array => exact ⟨code '[', _, rfl, by decide, by decide⟩
  | object => exact ⟨code '\x7b', _, rfl, by decide, by decide⟩

/-- A spelling of a value is read as the value when everything shorter is. Only behind a number it
matters what follows. -/
theorem value_of_spells {fuel : Nat} (hshorter : ReadsBelow fuel Spells (value fuel))
    {found : Value} {lead whole rest : List UInt8} (h : Spells found whole)
    (hbound : whole.length < fuel + 1) (hlead : Blank lead)
    (hends : SpellsNumber found whole → EndsNumber rest) :
    value (fuel + 1) (lead ++ whole ++ rest) = some (found, rest) := by
  have hskip : skipBlank (lead ++ whole ++ rest) = whole ++ rest := by
    obtain ⟨first, more, rfl, hsolid, -⟩ := openWithout_spells h
    rw [List.append_assoc, skipBlank_append hlead, List.cons_append, skipBlank_cons hsolid]
  cases h with
  | isNull => exact value_of_word (by simp) hskip
  | isTrue => exact value_of_word (by simp) hskip
  | isFalse => exact value_of_word (by simp) hskip
  | number hnumber =>
    obtain ⟨first, more, rfl, hfirst⟩ := hnumber.exists_cons
    rw [value_of_number hskip hfirst]
    exact hnumber.number_eq (hends hnumber)
  | string htext =>
    cases htext with
    | quoted hpieces =>
      have hread := hpieces.text_eq rest
      rw [List.append_cons] at hread
      exact value_of_string hskip hread
  | @array found inner hitems =>
    simp only [List.length_cons, List.length_append] at hbound
    have hread := itemsOrNone_of_enclosed hshorter openWithout_spells List.mem_cons_self hitems
      (by omega) (show inner.length < fuel + 1 by omega) rest
    rw [List.append_cons] at hread
    exact value_of_array hskip hread
  | @object found inner hmembers =>
    simp only [List.length_cons, List.length_append] at hbound
    have hread := itemsOrNone_of_enclosed (readsBelow_member hshorter) (openWithout_spellsMember _)
      (List.mem_cons_of_mem _ List.mem_cons_self) hmembers
      (by omega) (show inner.length < fuel + 1 by omega) rest
    rw [List.append_cons] at hread
    exact value_of_object hskip hread

/-- Every spelling of a value is read as the value, given more fuel than it has bytes. -/
theorem readsBelow_value (fuel : Nat) : ReadsBelow fuel Spells (value fuel) := by
  -- the items of a value are shorter than the value, so they are read with one unit less of fuel
  induction fuel with
  | zero =>
    intro found lead text rest _ hbound
    omega
  | succ fuel ih =>
    intro found lead text rest h hbound hlead hends
    exact value_of_spells ih h hbound hlead fun _ => hends

/-- A document that spells a value, with blank bytes around it, is read as the value. -/
theorem read?_of_spells {found : Value} {lead text trail : List UInt8} (hlead : Blank lead)
    (h : Spells found text) (htrail : Blank trail) :
    read? (lead ++ text ++ trail) = some found := by
  have hends : EndsNumber trail := by
    have hnil : EndsNumber [] := by simp [EndsNumber]
    have happend := hnil.append htrail
    rwa [List.append_nil] at happend
  have hbound : text.length < (lead ++ text ++ trail).length + 1 := by
    simp only [List.length_append]
    omega
  have hread := readsBelow_value _ h hbound hlead hends
  have hskip : skipBlank trail = [] := by
    have happend := skipBlank_append htrail []
    rwa [List.append_nil] at happend
  simp only [read?, hread, Option.bind_eq_bind, Option.bind_some, hskip]
  rfl

end TableLexer.Json
