import TableLexer.Automaton.Source
import TableLexer.Document.Acceptance

/-!
# A table for a small Java

The rules of a small language in the manner of Java: names, numbers, strings, characters, a few
operators and separators, and line comments. White space and comments return to the start state, so
they are skipped.
-/

namespace TableLexer.MiniJava

/-- The lines of the rule file. -/
def lines : List String :=
  ["# Small Java-flavoured rule file used by the integration tests.",
    "# from to symbol [excluded]",
    "",
    "# whitespace loops on the start state",
    "0 0 space", "0 0 HT", "0 0 LF", "0 0 CR",
    "",
    "# identifiers",
    "0 1 JL", "1 1 JL", "1 1 JD",
    "",
    "# integers, then floats (a '.' must be followed by a digit)",
    "0 2 0", "0 2 1", "0 2 2", "0 2 3", "0 2 4", "0 2 5", "0 2 6", "0 2 7", "0 2 8", "0 2 9",
    "2 2 0", "2 2 1", "2 2 2", "2 2 3", "2 2 4", "2 2 5", "2 2 6", "2 2 7", "2 2 8", "2 2 9",
    "2 3 .", "3 4 0", "3 4 1", "3 4 2", "3 4 3", "3 4 4", "3 4 5", "3 4 6", "3 4 7", "3 4 8",
    "3 4 9", "4 4 0", "4 4 1", "4 4 2", "4 4 3", "4 4 4", "4 4 5", "4 4 6", "4 4 7", "4 4 8",
    "4 4 9",
    "",
    "# strings: no raw line breaks inside",
    "0 5 \"", "5 6 \"", "5 5 no LF", "5 5 no CR",
    "",
    "# character literals",
    "0 7 '", "7 8 no '", "8 9 '",
    "",
    "# operators",
    "0 10 +", "10 11 +", "0 12 =", "12 13 =", "0 14 /",
    "",
    "# line comments fall back to the start state",
    "14 15 /", "15 15 no LF", "15 0 LF",
    "",
    "# separators",
    "0 16 (", "0 16 )", "0 16 \x7b", "0 16 \x7d", "0 16 ;", "0 16 ,", "0 16 ."]

/-- The text of the rule file. -/
def rules : String := String.join (lines.map fun line => line ++ "\n")

/-- The lines of the document with the accepting states that goes with the rule file. -/
def sidecarLines : List String :=
  ["\x7b",
    "  \"identifier\": [1],",
    "  \"integer_literal\": [2],",
    "  \"floating_point_literal\": [4],",
    "  \"character_literal\": [9],",
    "  \"string_literal\": [6],",
    "  \"operator\": [10, 11, 12, 13, 14],",
    "  \"separator\": [16]",
    "\x7d"]

/-- The document with the accepting states. -/
def sidecar : List UInt8 := sidecarLines.flatMap fun line => Json.ascii line ++ [0x0A]

/-- The accepting states. -/
def acceptance : Acceptance where
  identifier := [1]
  integerLiteral := [2]
  floatingPointLiteral := [4]
  characterLiteral := [9]
  stringLiteral := [6]
  operator := [10, 11, 12, 13, 14]
  separator := [16]

/-- The automaton of the rules. -/
def automaton : Except BuildError Automaton := Automaton.ofText rules acceptance

end TableLexer.MiniJava
