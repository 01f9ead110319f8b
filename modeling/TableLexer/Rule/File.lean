import TableLexer.Rule.Line

/-!
# Rule files

A rule file is read line by line up to its end or to the first faulty line. Lines end with LF; the
last one may lack it. A CR in front of the LF is blank like any other, so files with either kind of
line end read alike. Lines are numbered from one.
-/

namespace TableLexer

/-- A faulty line of a rule file. -/
structure RuleError where
  /-- The number of the line. -/
  line : Nat
  /-- What is wrong with it. -/
  fault : RuleFault
  deriving DecidableEq, Repr

/-- The text of a fault, as a message that begins with the number of the line. -/
def RuleError.message (e : RuleError) : String :=
  s!"line {e.line}: " ++
    match e.fault with
    | .missingField found => s!"expected `from to symbol`, found {found} field(s)"
    | .badState text => s!"`{text}` is not a state number"
    | .missingExclusion => "`no` rule without an excluded symbol"
    | .unknownSymbol name => s!"unknown excluded symbol `{name}`"

/-- A line of a rule file that was passed over. -/
structure RuleWarning where
  /-- The number of the line. -/
  line : Nat
  /-- Why it was passed over. -/
  reason : Ignored
  deriving DecidableEq, Repr

/-- The text of a warning, as a message that begins with the number of the line. -/
def RuleWarning.message (w : RuleWarning) : String :=
  s!"line {w.line}: " ++
    (match w.reason with
    | .outsideByteRange symbol => s!"`{symbol}` is outside the byte range"
    | .unknownToken name => s!"unknown rule token `{name}`") ++ "; rule ignored"

/-- What the reading of a rule file gives. -/
structure RuleFile where
  /-- The lines that were passed over, up to the first faulty one. -/
  warnings : List RuleWarning
  /-- The rules in the order of the file, unless a line is faulty. -/
  rules : Except RuleError (List Rule)

namespace RuleFile

/-- The lines of a text. An LF at the very end of the text opens no further line. -/
def lines (text : List Char) : List (List Char) :=
  match (text.splitOn '\n').reverse with
  | [] :: before => before.reverse
  | last => last.reverse

/-- Reads lines, of which the first has the given number. -/
def readLines (number : Nat) : List (List Char) → RuleFile
  | [] => ⟨[], .ok []⟩
  | line :: later =>
    match RuleLine.read line with
    | .error fault => ⟨[], .error ⟨number, fault⟩⟩
    | .ok .blank => readLines (number + 1) later
    | .ok (.rule rule) =>
      let file := readLines (number + 1) later
      ⟨file.warnings, file.rules.map (rule :: ·)⟩
    | .ok (.ignored reason) =>
      let file := readLines (number + 1) later
      ⟨⟨number, reason⟩ :: file.warnings, file.rules⟩

/-- Reads the text of a rule file. -/
def read (text : String) : RuleFile := readLines 1 (lines text.toList)

end RuleFile

end TableLexer
