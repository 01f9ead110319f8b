import TableLexer.Proofs.Json.Reading

/-!
# JSON that is read was spelled

A reader takes nothing off the front of some bytes but a spelling of what it answers. Together with
the reading of all spellings this makes the grammar exact: a document is read as a value if and only
if it spells the value, with nothing but blank bytes around it. So no document has two values, and
what follows a value is never passed over.
-/

namespace TableLexer.Json

/-- What is dropped as blank is blank. -/
theorem exists_eq_append_skipBlank (input : List UInt8) :
    ∃ lead, Blank lead ∧ input = lead ++ skipBlank input := by
  refine ⟨input.takeWhile isBlank, fun b hb => isBlank_iff.mp ?_, ?_⟩
  · exact List.all_eq_true.mp List.all_takeWhile b hb
  · exact List.takeWhile_append_dropWhile.symm

/-! ### Strings -/

/-- What is read of a string are spellings of its pieces and the closing quote. -/
theorem spellsPieces_of_text {input rest : List UInt8} {found : Text}
    (h : text input = some (found, rest)) :
    ∃ inner, input = inner ++ code '"' :: rest ∧ SpellsPieces found inner := by
  fun_induction text input generalizing found rest with
  | case1 | case3 | case5 | case7 => cases h
  | case2 rest =>
    cases h
    exact ⟨[], rfl, .nil⟩
  | case4 a b c d later _ ih =>
    obtain ⟨unit, hunit, hlater⟩ := Option.bind_eq_some_iff.mp h
    obtain ⟨⟨more, left⟩, hmore, hfound⟩ := Option.bind_eq_some_iff.mp hlater
    obtain ⟨inner, hinner, hpieces⟩ := ih hmore
    cases hfound
    exact ⟨_, by rw [hinner]; rfl, .cons (.digits hunit) hpieces⟩
  | case6 kind later _ _ ih =>
    obtain ⟨unit, hunit, hlater⟩ := Option.bind_eq_some_iff.mp h
    obtain ⟨⟨more, left⟩, hmore, hfound⟩ := Option.bind_eq_some_iff.mp hlater
    obtain ⟨inner, hinner, hpieces⟩ := ih hmore
    cases hfound
    exact ⟨_, by rw [hinner]; rfl, .cons (.short hunit) hpieces⟩
  | case8 b later hquote hslash hcontrol ih =>
    obtain ⟨⟨more, left⟩, hmore, hfound⟩ := Option.bind_eq_some_iff.mp h
    obtain ⟨inner, hinner, hpieces⟩ := ih hmore
    cases hfound
    exact ⟨_, by rw [hinner]; rfl, .cons (.byte hquote hslash (UInt8.not_lt.mp hcontrol)) hpieces⟩

/-! ### Numbers -/

/-- Digits are read off the front. -/
theorem digits_eq_some {input run rest : List UInt8} (h : digits input = some (run, rest)) :
    input = run ++ rest ∧ Digits run := by
  have hspan : input.span isDigit = (run, rest) ∧ run ≠ [] := by
    unfold digits at h
    split at h
    · cases h
    · next hne =>
      obtain hrun := Option.some.inj h
      refine ⟨hrun, ?_⟩
      rintro rfl
      exact hne rest hrun
  rw [List.span_eq_takeWhile_dropWhile] at hspan
  obtain ⟨hsplit, hne⟩ := hspan
  obtain ⟨hrun, hrest⟩ := Prod.mk.inj hsplit
  refine ⟨?_, hne, fun b hb => ?_⟩
  · rw [← hrun, ← hrest, List.takeWhile_append_dropWhile]
  · exact List.all_eq_true.mp List.all_takeWhile b (hrun ▸ hb)

/-- A sign is read off the front, or nothing. -/
theorem sign_eq_append (input : List UInt8) :
    input = (sign input).1 ++ (sign input).2 ∧ (sign input).1 ∈ [[], [code '-']] := by
  unfold sign
  split
  · exact ⟨rfl, List.mem_cons_self⟩
  · next b rest =>
    split
    · next hminus => exact ⟨rfl, by simp [hminus]⟩
    · exact ⟨rfl, List.mem_cons_self⟩

/-- The sign of an exponent is a plus sign, a minus sign or nothing, and it is taken off the front.
-/
theorem exponentSign_eq_append (input : List UInt8) :
    input = (exponentSign input).1 ++ (exponentSign input).2 ∧
      (exponentSign input).1 ∈ [[], [code '+'], [code '-']] := by
  unfold exponentSign
  split
  · exact ⟨rfl, List.mem_cons_self⟩
  · next b rest =>
    split
    · next hmark =>
      simp only [Bool.or_eq_true, decide_eq_true_eq] at hmark
      exact ⟨rfl, by simpa using hmark⟩
    · exact ⟨rfl, List.mem_cons_self⟩

/-- What is read as the whole part of a number is one, and it is taken off the front. -/
theorem whole_eq_some {input run rest : List UInt8} (h : whole input = some (run, rest)) :
    input = run ++ rest ∧ Whole run := by
  unfold whole at h
  split at h
  · cases h
  · next b more =>
    split at h
    · next hzero =>
      cases h
      subst hzero
      have hdigit : isDigit (code '0') = true := by decide
      refine ⟨rfl, ⟨List.cons_ne_nil _ _, List.forall_mem_singleton.mpr hdigit⟩, ?_⟩
      rintro later hlater
      exact (List.cons.inj hlater).2.symm
    · next hzero =>
      obtain ⟨heq, hdigits⟩ := digits_eq_some h
      refine ⟨heq, hdigits, ?_⟩
      rintro later rfl
      exact absurd (List.cons.inj heq).1 hzero

/-- What is read as a fraction is one, and it is taken off the front. -/
theorem fraction_eq_some {input point rest : List UInt8} (h : fraction input = some (point, rest)) :
    input = point ++ rest ∧ Fraction point := by
  unfold fraction at h
  split at h
  · cases h
    exact ⟨rfl, .missing⟩
  · next b more =>
    split at h
    · next hpoint =>
      obtain ⟨⟨run, left⟩, hrun, hfound⟩ := Option.map_eq_some_iff.mp h
      obtain ⟨heq, hdigits⟩ := digits_eq_some hrun
      cases hfound
      subst hpoint
      exact ⟨congrArg (_ :: ·) heq, .point hdigits⟩
    · cases h
      exact ⟨rfl, .missing⟩

/-- What is read as an exponent is one, and it is taken off the front. -/
theorem exponent_eq_some {input power rest : List UInt8} (h : exponent input = some (power, rest)) :
    input = power ++ rest ∧ Exponent power := by
  unfold exponent at h
  split at h
  · cases h
    exact ⟨rfl, .missing⟩
  · next b more =>
    split at h
    · next hletter =>
      obtain ⟨hsplit, hmark⟩ := exponentSign_eq_append more
      cases hsign : exponentSign more with
      | mk mark behind =>
        rw [hsign] at h hsplit hmark
        obtain ⟨⟨run, left⟩, hrun, hfound⟩ := Option.map_eq_some_iff.mp h
        obtain ⟨rfl, hdigits⟩ := digits_eq_some hrun
        cases hfound
        have hmem : b ∈ [code 'e', code 'E'] := by simpa using hletter
        refine ⟨?_, .power hmem hmark hdigits⟩
        rw [hsplit]
        simp
    · cases h
      exact ⟨rfl, .missing⟩

/-- What is read of a number is a spelling of it. -/
theorem spellsNumber_of_number {input rest : List UInt8} {found : Value}
    (h : number input = some (found, rest)) :
    ∃ spelling, input = spelling ++ rest ∧ SpellsNumber found spelling := by
  obtain ⟨hsplit, hminus⟩ := sign_eq_append input
  unfold number at h
  cases hsign : sign input with
  | mk minus afterMinus =>
    rw [hsign] at h hsplit hminus
    obtain ⟨⟨run, afterRun⟩, hrun, hbehindRun⟩ := Option.bind_eq_some_iff.mp h
    obtain ⟨⟨point, afterPoint⟩, hpoint, hbehindPoint⟩ := Option.bind_eq_some_iff.mp hbehindRun
    obtain ⟨⟨power, left⟩, hpower, hfound⟩ := Option.bind_eq_some_iff.mp hbehindPoint
    obtain ⟨hsplitRun, hwhole⟩ := whole_eq_some hrun
    obtain ⟨hsplitPoint, hfraction⟩ := fraction_eq_some hpoint
    obtain ⟨hsplitPower, hexponent⟩ := exponent_eq_some hpower
    have hparts : input = minus ++ run ++ point ++ power ++ left := by
      rw [hsplit, hsplitRun, hsplitPoint, hsplitPower]
      simp only [List.append_assoc]
    simp only at hfound
    split at hfound
    · next hnone =>
      cases hfound
      simp only [Bool.and_eq_true, List.isEmpty_iff] at hnone
      obtain ⟨⟨rfl, rfl⟩, rfl⟩ := hnone
      exact ⟨run, by simpa using hparts, .natural hwhole⟩
    · next hsome =>
      cases hfound
      refine ⟨_, hparts, .other hminus hwhole hfraction hexponent ?_⟩
      simp only [Bool.and_eq_true, List.isEmpty_iff] at hsome
      by_contra hall
      simp only [not_or, ne_eq, not_not] at hall
      exact hsome ⟨⟨hall.1, hall.2.1⟩, hall.2.2⟩

/-! ### Lists and objects -/

/-- Whether a reader takes nothing off the front but spellings, behind blank bytes. -/
def TakesSpellings {α : Type} (spells : α → List UInt8 → Prop) (item : Reader α) : Prop :=
  ∀ {input rest : List UInt8} {found : α}, item input = some (found, rest) →
    ∃ lead spelling, input = lead ++ spelling ++ rest ∧ Blank lead ∧ spells found spelling

section Sequence

variable {α : Type} {spells : α → List UInt8 → Prop} {item : Reader α} {close : UInt8}

/-- What is read as items is a spelling of items and the closing byte. -/
theorem listed_of_items (hitem : TakesSpellings spells item) {fuel : Nat} {input rest : List UInt8}
    {found : List α} (h : items item close fuel input = some (found, rest)) :
    ∃ inner, input = inner ++ close :: rest ∧ Listed spells found inner := by
  induction fuel generalizing input found with
  | zero => cases h
  | succ fuel ih =>
    rw [items] at h
    obtain ⟨⟨first, behind⟩, hfirst, hlater⟩ := Option.bind_eq_some_iff.mp h
    obtain ⟨lead, spelling, rfl, hlead, hspelling⟩ := hitem hfirst
    obtain ⟨trail, htrail, hbehind⟩ := exists_eq_append_skipBlank behind
    simp only at hlater
    cases hskip : skipBlank behind with
    | nil =>
      rw [hskip] at hlater
      cases hlater
    | cons b left =>
      rw [hskip] at hbehind hlater
      simp only at hlater
      split at hlater
      · next hclose =>
        cases hlater
        refine ⟨lead ++ spelling ++ trail, ?_, .last hlead hspelling htrail⟩
        rw [hbehind, hclose, List.append_assoc _ trail]
      · split at hlater
        · next hcomma =>
          obtain ⟨⟨more, final⟩, hmore, hfound⟩ := Option.bind_eq_some_iff.mp hlater
          cases hfound
          obtain ⟨inner, hleft, hinner⟩ := ih hmore
          refine ⟨_, ?_, .cons hlead hspelling htrail hinner⟩
          rw [hbehind, hcomma, hleft]
          simp
        · cases hlater

/-- Blank bytes in front of items belong to them. -/
theorem Listed.append_blank {found : List α} {lead inner : List UInt8} (hlead : Blank lead)
    (h : Listed spells found inner) : Listed spells found (lead ++ inner) := by
  have happend {front : List UInt8} (hfront : Blank front) : Blank (lead ++ front) :=
    List.forall_mem_append.mpr ⟨hlead, hfront⟩
  cases h with
  | last hfront hspells htrail =>
    simpa only [List.append_assoc] using Listed.last (happend hfront) hspells htrail
  | cons hfront hspells htrail hlater =>
    simpa only [List.append_assoc] using Listed.cons (happend hfront) hspells htrail hlater

/-- What is read up to a closing bracket is a spelling of what stands between the brackets. -/
theorem enclosed_of_itemsOrNone (hitem : TakesSpellings spells item) {fuel : Nat}
    {input rest : List UInt8} {found : List α}
    (h : itemsOrNone item close fuel input = some (found, rest)) :
    ∃ inner, input = inner ++ close :: rest ∧ Enclosed spells found inner := by
  obtain ⟨lead, hlead, hinput⟩ := exists_eq_append_skipBlank input
  unfold itemsOrNone at h
  split at h
  · cases h
  · next b left hskip =>
    rw [hskip] at hinput
    split at h
    · next hclose =>
      cases h
      exact ⟨lead, by rw [hinput, hclose], .empty hlead⟩
    · obtain ⟨inner, hinner, hlisted⟩ := listed_of_items hitem h
      exact ⟨lead ++ inner, by rw [hinput, hinner, List.append_assoc],
        .listed (hlisted.append_blank hlead)⟩

end Sequence

/-- What is read as a member is a spelling of it. -/
theorem takesSpellings_member {spells : Value → List UInt8 → Prop} {reader : Reader Value}
    (hreader : TakesSpellings spells reader) :
    TakesSpellings (SpellsMember spells) (member reader) := by
  intro input rest found h
  obtain ⟨front, hfront, hinput⟩ := exists_eq_append_skipBlank input
  unfold member at h
  split at h
  · cases h
  · next b left hskip =>
    split at h
    · next hquote =>
      obtain ⟨⟨key, behind⟩, hkey, hlater⟩ := Option.bind_eq_some_iff.mp h
      obtain ⟨inner, hinner, hpieces⟩ := spellsPieces_of_text hkey
      obtain ⟨trail, htrail, hbehind⟩ := exists_eq_append_skipBlank behind
      simp only at hlater
      split at hlater
      · cases hlater
      · next c afterColon hskipColon =>
        split at hlater
        · next hcolon =>
          obtain ⟨⟨value, final⟩, hvalue, hfound⟩ := Option.bind_eq_some_iff.mp hlater
          obtain ⟨lead, spelling, hspelled, hlead, hspelling⟩ := hreader hvalue
          cases hfound
          refine ⟨front, _, ?_, hfront, .pair (.quoted hpieces) htrail hlead hspelling⟩
          rw [hinput, hskip, hquote, hinner, hbehind, hskipColon, hcolon, hspelled]
          simp
        · cases hlater
    · cases h

/-! ### Values -/

/-- What is read as a word is its spelling. -/
theorem eq_of_word {spelling : String} {value found : Value} {input rest : List UInt8}
    (h : word spelling value input = some (found, rest)) :
    found = value ∧ input = ascii spelling ++ rest := by
  unfold word at h
  split at h
  · next hprefix =>
    obtain ⟨later, rfl⟩ := List.isPrefixOf_iff_prefix.mp hprefix
    rw [List.drop_left] at h
    cases h
    exact ⟨rfl, rfl⟩
  · cases h

/-- What is read as a value is a spelling of it. -/
theorem takesSpellings_value (fuel : Nat) : TakesSpellings Spells (value fuel) := by
  -- what a value holds is read with one unit less of fuel
  induction fuel with
  | zero =>
    intro input rest found h
    cases h
  | succ fuel ih =>
    intro input rest found h
    obtain ⟨lead, hlead, hinput⟩ := exists_eq_append_skipBlank input
    suffices hspelled : ∃ spelling, skipBlank input = spelling ++ rest ∧ Spells found spelling by
      obtain ⟨spelling, hskip, hspells⟩ := hspelled
      exact ⟨lead, spelling, by rw [hinput, hskip, List.append_assoc], hlead, hspells⟩
    unfold value at h
    split at h
    · cases h
    · next b left hskip =>
      rw [hskip]
      split_ifs at h with harray hobject hstring hnull htrue hfalse
      · obtain ⟨⟨items, final⟩, hitems, hfound⟩ := Option.map_eq_some_iff.mp h
        obtain ⟨inner, hinner, henclosed⟩ := enclosed_of_itemsOrNone ih hitems
        cases hfound
        exact ⟨_, by rw [harray, hinner]; simp, .array henclosed⟩
      · obtain ⟨⟨members, final⟩, hmembers, hfound⟩ := Option.map_eq_some_iff.mp h
        obtain ⟨inner, hinner, henclosed⟩ :=
          enclosed_of_itemsOrNone (takesSpellings_member ih) hmembers
        cases hfound
        exact ⟨_, by rw [hobject, hinner]; simp, .object henclosed⟩
      · obtain ⟨⟨pieces, final⟩, hpieces, hfound⟩ := Option.map_eq_some_iff.mp h
        obtain ⟨inner, hinner, hspells⟩ := spellsPieces_of_text hpieces
        cases hfound
        exact ⟨_, by rw [hstring, hinner]; simp, .string (.quoted hspells)⟩
      · obtain ⟨rfl, heq⟩ := eq_of_word h
        exact ⟨_, heq, .isNull⟩
      · obtain ⟨rfl, heq⟩ := eq_of_word h
        exact ⟨_, heq, .isTrue⟩
      · obtain ⟨rfl, heq⟩ := eq_of_word h
        exact ⟨_, heq, .isFalse⟩
      · obtain ⟨spelling, heq, hspells⟩ := spellsNumber_of_number h
        exact ⟨spelling, heq, .number hspells⟩

/-! ### Documents -/

/-- The documents of a value: its spellings, with blank bytes around them. -/
inductive SpellsDocument (found : Value) : List UInt8 → Prop
  /-- A spelling between blank bytes. -/
  | framed {lead spelling trail : List UInt8} (hlead : Blank lead) (h : Spells found spelling)
    (htrail : Blank trail) : SpellsDocument found (lead ++ spelling ++ trail)

/-- A document that is read is a value that is read off its front, and blank bytes. -/
theorem exists_value_of_read? {document : List UInt8} {found : Value}
    (h : read? document = some found) :
    ∃ trail, value (document.length + 1) document = some (found, trail) ∧ Blank trail := by
  obtain ⟨⟨front, rest⟩, hvalue, hfound⟩ := Option.bind_eq_some_iff.mp h
  obtain ⟨trail, htrail, hrest⟩ := exists_eq_append_skipBlank rest
  simp only at hfound
  split at hfound
  · next hempty =>
    cases hfound
    rw [List.isEmpty_iff.mp hempty, List.append_nil] at hrest
    exact ⟨rest, hvalue, hrest ▸ htrail⟩
  · cases hfound

/-- A document is read as a value if and only if it spells the value. -/
theorem read?_eq_some_iff {document : List UInt8} {found : Value} :
    read? document = some found ↔ SpellsDocument found document := by
  constructor
  · intro h
    obtain ⟨trail, hvalue, htrail⟩ := exists_value_of_read? h
    obtain ⟨lead, spelling, hdocument, hlead, hspells⟩ := takesSpellings_value _ hvalue
    rw [hdocument]
    exact .framed hlead hspells htrail
  · rintro ⟨hlead, hspells, htrail⟩
    exact read?_of_spells hlead hspells htrail

/-- Behind a value there may be nothing but blank bytes, unless what follows makes another number
of it. -/
theorem exists_spellsNumber_of_not_blank {found other : Value} {lead spelling trail : List UInt8}
    (hlead : Blank lead) (h : Spells found spelling) (htrail : ¬ Blank trail)
    (hread : read? (lead ++ spelling ++ trail) = some other) :
    ∃ text, SpellsNumber other text := by
  obtain ⟨rest, hvalue, hrest⟩ := exists_value_of_read? hread
  by_cases hnumber : SpellsNumber found spelling
  · obtain ⟨first, more, rfl, hfirst⟩ := hnumber.exists_cons
    have hskip : skipBlank (lead ++ first :: more ++ trail) = first :: (more ++ trail) := by
      rw [List.append_assoc, skipBlank_append hlead, List.cons_append,
        skipBlank_cons (not_mem_blanks_of_number hfirst).1]
    rw [value_of_number hskip hfirst] at hvalue
    obtain ⟨text, -, htext⟩ := spellsNumber_of_number hvalue
    exact ⟨text, htext⟩
  · have hbound : spelling.length < (lead ++ spelling ++ trail).length + 1 := by
      simp only [List.length_append]
      omega
    have hends : SpellsNumber found spelling → EndsNumber trail := fun hspells =>
      absurd hspells hnumber
    have hsame := value_of_spells (readsBelow_value _) h hbound hlead hends
    rw [hvalue] at hsame
    cases hsame
    exact absurd hrest htrail

end TableLexer.Json
