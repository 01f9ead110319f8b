import TableLexer.Proofs.Rule.Reading

/-!
# Rule files line by line

What a rule file says is told by its lines alone: the rules are those that the lines say, in their
order, unless a line is faulty, and then the first faulty line is told with its number. A line that
is passed over gives a warning with its number, if no faulty line stands before it. How lines end
does not matter, since a CR in front of an LF is no part of what a line says.
-/

namespace TableLexer.RuleFile

open Layout LineGrammar

/-! ### Cutting a text into lines -/

/-- What stands in front of an LF, without the CR of a line that ends with CR and LF. -/
def withoutCR (front : List Char) : List Char :=
  if front.getLast? = some '\x0d' then front.dropLast else front

/-- A text falls into lines at its LFs. An LF at the very end opens no further line. -/
inductive CutsInto : List Char → List (List Char) → Prop
  /-- There is nothing left. -/
  | empty : CutsInto [] []
  /-- A line up to an LF, in front of what the rest of the text falls into. -/
  | line {front text : List Char} {lines : List (List Char)} (hfront : '\n' ∉ front)
    (h : CutsInto text lines) : CutsInto (front ++ '\n' :: text) (withoutCR front :: lines)
  /-- A last line without an LF. -/
  | last {line : List Char} (hline : '\n' ∉ line) (hne : line ≠ []) : CutsInto line [line]

/-- A character that is no LF goes to the front of the first line. -/
theorem CutsInto.exists_cons {c : Char} (hc : c ≠ '\n') {text : List Char}
    {lines : List (List Char)} (h : CutsInto text lines) :
    ∃ first later, CutsInto (c :: text) (first :: later) := by
  cases h with
  | empty => exact ⟨[c], [], .last (by simpa using hc.symm) (List.cons_ne_nil _ _)⟩
  | line hfront hlater =>
    exact ⟨_, _, .line (List.not_mem_cons_of_ne_of_not_mem hc.symm hfront) hlater⟩
  | last hline _ =>
    exact ⟨_, [], .last (List.not_mem_cons_of_ne_of_not_mem hc.symm hline) (List.cons_ne_nil _ _)⟩

/-- Every text falls into lines. -/
theorem exists_cutsInto (text : List Char) : ∃ lines, CutsInto text lines := by
  induction text with
  | nil => exact ⟨[], .empty⟩
  | cons c text ih =>
    obtain ⟨lines, hlines⟩ := ih
    by_cases hc : c = '\n'
    · subst hc
      exact ⟨_, .line List.not_mem_nil hlines⟩
    · obtain ⟨first, later, hcons⟩ := hlines.exists_cons hc
      exact ⟨_, hcons⟩

/-- A text falls into lines in one way. -/
theorem CutsInto.unique {text : List Char} {lines others : List (List Char)}
    (h : CutsInto text lines) (hothers : CutsInto text others) : lines = others := by
  induction h generalizing others with
  | empty =>
    generalize htext : [] = text at hothers
    cases hothers with
    | empty => rfl
    | line => simp at htext
    | last _ hne => exact absurd htext.symm hne
  | @line front text lines hfront _ ih =>
    generalize htext : front ++ '\n' :: text = whole at hothers
    cases hothers with
    | empty => simp at htext
    | @line front' text' lines' hfront' hothers =>
      -- the LF is the first one of the text on both sides
      have hlines := congrArg RuleFile.lines htext
      rw [lines_append hfront, lines_append hfront'] at hlines
      obtain rfl : front = front' := (List.cons.inj hlines).1
      obtain rfl := (List.cons.inj (List.append_cancel_left htext)).2
      rw [ih hothers]
    | last hline _ => simp [← htext] at hline
  | @last line hline hne =>
    cases hothers with
    | empty => exact absurd rfl hne
    | line => simp at hline
    | last => rfl

/-! ### Line ends -/

/-- A CR behind a line is no part of what it says. -/
theorem read_withoutCR (front : List Char) :
    RuleLine.read (withoutCR front) = RuleLine.read front := by
  unfold withoutCR
  split
  · next hlast =>
    obtain ⟨line, rfl⟩ := List.getLast?_eq_some_iff.mp hlast
    rw [List.dropLast_concat, RuleLine.read, RuleLine.read,
      fields_append_separator line (by decide)]
  · rfl

/-- The first line of a text may be read in place of what stands in front of the first LF. -/
theorem readLines_lines_append {front line text : List Char} {lines : List (List Char)}
    (hfront : '\n' ∉ front) (hread : RuleLine.read front = RuleLine.read line)
    (h : ∀ number, readLines number (RuleFile.lines text) = readLines number lines) (number : Nat) :
    readLines number (RuleFile.lines (front ++ '\n' :: text)) =
      readLines number (line :: lines) := by
  rw [lines_append hfront, readLines, readLines, hread, h]

/-- A text is read as the lines that it falls into. -/
theorem CutsInto.readLines_eq {text : List Char} {lines : List (List Char)}
    (h : CutsInto text lines) (number : Nat) :
    readLines number (RuleFile.lines text) = readLines number lines := by
  induction h generalizing number with
  | empty => rfl
  | @line front text lines hfront _ ih =>
    exact readLines_lines_append hfront (read_withoutCR front).symm ih number
  | last hline hne => rw [lines_of_not_mem hline, if_neg hne]

/-- A text with a CR put in front of every LF. -/
def withCRs (text : List Char) : List Char :=
  text.flatMap fun c => if c = '\n' then ['\x0d', '\n'] else [c]

/-- Nothing is put in front of a character that is no LF. -/
theorem withCRs_cons {c : Char} (hc : c ≠ '\n') (text : List Char) :
    withCRs (c :: text) = c :: withCRs text := by
  rw [withCRs, List.flatMap_cons, if_neg hc]
  rfl

/-- A text without LFs gets no CR. -/
theorem withCRs_of_not_mem {line : List Char} (h : '\n' ∉ line) : withCRs line = line := by
  induction line with
  | nil => rfl
  | cons c line ih =>
    rw [withCRs_cons (List.ne_of_not_mem_cons h).symm, ih (List.not_mem_of_not_mem_cons h)]

/-- The first line of a text gets a CR at its end. -/
theorem withCRs_append {front : List Char} (h : '\n' ∉ front) (text : List Char) :
    withCRs (front ++ '\n' :: text) = (front ++ ['\x0d']) ++ '\n' :: withCRs text := by
  induction front with
  | nil => rfl
  | cons c front ih =>
    rw [List.cons_append, withCRs_cons (List.ne_of_not_mem_cons h).symm,
      ih (List.not_mem_of_not_mem_cons h)]
    rfl

/-- A text with CRs is read as the lines that it falls into without them. -/
theorem CutsInto.readLines_withCRs {text : List Char} {lines : List (List Char)}
    (h : CutsInto text lines) (number : Nat) :
    readLines number (RuleFile.lines (withCRs text)) = readLines number lines := by
  induction h generalizing number with
  | empty => rfl
  | @line front text lines hfront _ ih =>
    have hfront' : '\n' ∉ front ++ ['\x0d'] := List.not_mem_append hfront (by decide)
    have hread : RuleLine.read (front ++ ['\x0d']) = RuleLine.read (withoutCR front) := by
      rw [read_withoutCR, RuleLine.read, RuleLine.read, fields_append_separator front (by decide)]
    rw [withCRs_append hfront]
    exact readLines_lines_append hfront' hread ih number
  | last hline hne => rw [withCRs_of_not_mem hline, lines_of_not_mem hline, if_neg hne]

/-! ### What lines say together -/

/-- The rule that a line says, if it says one. -/
def rule? (line : List Char) : Option Rule :=
  match RuleLine.read line with
  | .ok (.rule rule) => some rule
  | _ => none

/-- Why a line is passed over, if it is. -/
def ignored? (line : List Char) : Option Ignored :=
  match RuleLine.read line with
  | .ok (.ignored reason) => some reason
  | _ => none

/-- A line without a fault. -/
def Sound (line : List Char) : Prop := ∃ said, RuleLine.read line = .ok said

/-- The warnings about lines, of which the first has the given number. -/
def warningsOf (number : Nat) (lines : List (List Char)) : List RuleWarning :=
  (lines.zipIdx number).filterMap fun (line, number) => (ignored? line).map (RuleWarning.mk number)

/-- Sound lines put their warnings and their rules in front of those of the lines behind them. -/
theorem readLines_append {front : List (List Char)} (hfront : ∀ line ∈ front, Sound line)
    (number : Nat) (later : List (List Char)) :
    readLines number (front ++ later) =
      ⟨warningsOf number front ++ (readLines (number + front.length) later).warnings,
        (readLines (number + front.length) later).rules.map (front.filterMap rule? ++ ·)⟩ := by
  induction front generalizing number with
  | nil =>
    change readLines number later = ⟨(readLines number later).warnings, _⟩
    have hsame : (readLines number later).rules.map (([] : List Rule) ++ ·) =
        (readLines number later).rules := by
      cases (readLines number later).rules <;> rfl
    rw [List.filterMap_nil, List.length_nil, Nat.add_zero, hsame]
  | cons line front ih =>
    obtain ⟨said, hsaid⟩ := hfront line List.mem_cons_self
    have hlater := ih (fun line hline => hfront line (List.mem_cons_of_mem _ hline)) (number + 1)
    have hcount : number + 1 + front.length = number + (line :: front).length := by
      rw [List.length_cons]
      omega
    rw [hcount] at hlater
    rw [List.cons_append, readLines, hsaid]
    simp only [warningsOf, List.zipIdx_cons, List.filterMap_cons, rule?, ignored?, hsaid]
      at hlater ⊢
    cases said with
    | blank => exact hlater
    | rule rule =>
      simp only [hlater]
      cases (readLines (number + (line :: front).length) later).rules <;> rfl
    | ignored reason =>
      simp only [hlater]
      rfl

/-- A rule file falls into lines in one way, and is read as these, however they end. Without a
faulty line, the rules are those that the lines say, in their order, and the warnings are one for
each line that is passed over. Otherwise the first faulty line is told, with its number and its
fault, and the warnings are those about the lines before it. In particular, a CR in front of every
LF changes nothing. -/
theorem read_line_by_line (text : String) :
    ∃ lines, (∀ others, CutsInto text.toList others ↔ others = lines) ∧
      ((∀ line ∈ lines, Sound line) →
        read text = ⟨warningsOf 1 lines, .ok (lines.filterMap rule?)⟩) ∧
      (∀ front line later fault, lines = front ++ line :: later → (∀ line ∈ front, Sound line) →
        RuleLine.read line = .error fault →
          read text = ⟨warningsOf 1 front, .error ⟨front.length + 1, fault⟩⟩) ∧
      (∀ other : String, CutsInto other.toList lines → read other = read text) ∧
      read (String.ofList (withCRs text.toList)) = read text := by
  obtain ⟨lines, hlines⟩ := exists_cutsInto text.toList
  have hread : read text = readLines 1 lines := hlines.readLines_eq 1
  refine ⟨lines, fun others => ⟨fun hothers => hothers.unique hlines, ?_⟩, fun hsound => ?_, ?_,
    fun other hother => ?_, ?_⟩
  · rintro rfl
    exact hlines
  · have hall := readLines_append hsound 1 []
    simp only [List.append_nil, readLines, Except.map] at hall
    rw [hread, hall]
  · rintro front line later fault rfl hfront hfault
    rw [hread, readLines_append hfront, readLines, hfault, Nat.add_comm 1]
    simp only [List.append_nil, Except.map]
  · rw [hread]
    exact hother.readLines_eq 1
  · rw [hread, read, String.toList_ofList]
    exact hlines.readLines_withCRs 1

/-- A comment, a line that is passed over, an empty line, a rule, and a line with a field too few.
The first two end with CR and LF. -/
def faultyText : String := "# x\x0d\n0 0 ab\x0d\n\n0 1 y\n2 z\n"

/-- Its lines before the faulty one. -/
def faultyTextFront : List (List Char) :=
  ["# x".toList, "0 0 ab".toList, [], "0 1 y".toList]

/-- The faulty text falls into its lines. -/
theorem cutsInto_faultyText :
    CutsInto faultyText.toList (faultyTextFront ++ "2 z".toList :: []) := by
  have hfault := @CutsInto.line "2 z".toList _ _ (by decide) .empty
  have hrule := @CutsInto.line "0 1 y".toList _ _ (by decide) hfault
  have hempty := @CutsInto.line [] _ _ (by decide) hrule
  have hignored := @CutsInto.line "0 0 ab\x0d".toList _ _ (by decide) hempty
  exact @CutsInto.line "# x\x0d".toList _ _ (by decide) hignored

/-- The faulty line is the fifth one, and the line that is passed over the second one, also with a
CR in front of every LF. -/
theorem read_line_by_line_faultyText :
    (∀ line ∈ faultyTextFront, Sound line) ∧
      RuleLine.read "2 z".toList = .error (.missingField 2) ∧
      read faultyText = ⟨[⟨2, .unknownToken "ab"⟩], .error ⟨5, .missingField 2⟩⟩ ∧
      read (String.ofList (withCRs faultyText.toList)) = read faultyText ∧
      read "0 1 y" = ⟨[], .ok [⟨0, 1, .byte 0x79⟩]⟩ := by
  have hfront : ∀ line ∈ faultyTextFront, Sound line := by
    simp only [faultyTextFront, List.forall_mem_cons, List.not_mem_nil, false_implies,
      implies_true, and_true]
    exact ⟨⟨_, rfl⟩, ⟨_, rfl⟩, ⟨_, rfl⟩, ⟨_, rfl⟩⟩
  have hfault : RuleLine.read "2 z".toList = .error (.missingField 2) := rfl
  obtain ⟨lines, hlines, -, hfaulty, -, hcrs⟩ := read_line_by_line faultyText
  obtain rfl := (hlines _).mp cutsInto_faultyText
  obtain ⟨single, hsingle, hsound, -⟩ := read_line_by_line "0 1 y"
  obtain rfl := (hsingle ["0 1 y".toList]).mp (.last (by decide) (by decide))
  refine ⟨hfront, hfault, hfaulty _ _ _ _ rfl hfront hfault, hcrs, ?_⟩
  exact hsound (List.forall_mem_singleton.mpr ⟨_, rfl⟩)

end TableLexer.RuleFile
