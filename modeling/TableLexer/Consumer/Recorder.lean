import TableLexer.Consumer.Basic

/-!
# Recorders

A recorder is a consumer that keeps all it is given. It may have room for so many tokens only, and
it may refuse failures after having kept them.
-/

namespace TableLexer

/-- What a recorder has kept. -/
structure Recording where
  /-- The tokens with their lexemes. -/
  tokens : Array (Token × String) := #[]
  /-- The failures. -/
  errors : Array LexicalError := #[]
  deriving DecidableEq, Repr

/-- Why a recorder refuses what it is given. -/
inductive RecorderError where
  /-- There is no room for another token. -/
  | full
  /-- Failures are refused. -/
  | failure
  deriving DecidableEq, Repr

/-- The text of a refusal of a recorder. -/
def RecorderError.message : RecorderError → String
  | .full => "sink full"
  | .failure => "sink error failed"

/-- The recorder with room for so many tokens, or for all. A token without room is not kept. -/
def Consumer.recorder (room : Option Nat) (refusesFailures : Bool) :
    Consumer Recording RecorderError where
  accept token lexeme := do
    if room.any (· ≤ (← get).tokens.size) then
      throw .full
    modify fun recording => { recording with tokens := recording.tokens.push (token, lexeme) }
  error e := do
    modify fun recording => { recording with errors := recording.errors.push e }
    if refusesFailures then
      throw .failure

end TableLexer
