import TableLexer.Scanner.Basic

/-!
# Consumers

A consumer takes the tokens of a scan one after the other, and the failure of the scan if there is
one. It keeps a state of its own, and it may refuse what it is given. A refusal ends the feeding but
not the scan: the refused token is behind the scanner, and another consumer can go on from there.
-/

namespace TableLexer

/-- Takes tokens and failures, with a state of type `σ` and refusals of type `ε`. The state survives
a refusal. -/
structure Consumer (σ ε : Type) where
  /-- Takes a token with its lexeme. -/
  accept : Token → String → EStateM ε σ Unit
  /-- Takes the failure that ends the scan. -/
  error : LexicalError → EStateM ε σ Unit

/-- What a consumer was given, when it refused nothing. -/
structure Delivery where
  /-- How many tokens. -/
  tokens : Nat
  /-- The failure of the scan, if it ended with one. -/
  error : Option LexicalError
  deriving DecidableEq, Repr

/-- How the feeding of a consumer ended. -/
structure Feeding (a : Automaton) (σ ε : Type) where
  /-- What was given, or the refusal. -/
  report : Except ε Delivery
  /-- The scanner after that. -/
  scanner : Scanner a
  /-- The state of the consumer after that. -/
  state : σ

namespace Scanner

variable {a : Automaton} {σ ε : Type}

/-- Feeds a consumer that has been given some tokens already. -/
def feedFrom (consumer : Consumer σ ε) (given : Nat) (s : Scanner a) (state : σ) :
    Feeding a σ ε :=
  match _hnext : s.nextToken with
  | (.ok none, later) => ⟨.ok ⟨given, none⟩, later, state⟩
  | (.error e, later) =>
    match consumer.error e state with
    | .ok _ state => ⟨.ok ⟨given, some e⟩, later, state⟩
    | .error refusal state => ⟨.error refusal, later, state⟩
  | (.ok (some token), later) =>
    match consumer.accept token ((later.lexeme? token.id).getD "") state with
    | .ok _ state => later.feedFrom consumer (given + 1) state
    | .error refusal state => ⟨.error refusal, later, state⟩
termination_by s.rest.length
decreasing_by exact length_rest_lt _hnext

/-- At the end of the source, a consumer is given nothing. -/
theorem feedFrom_of_end {s later : Scanner a} (h : s.nextToken = (.ok none, later))
    (consumer : Consumer σ ε) (given : Nat) (state : σ) :
    s.feedFrom consumer given state = ⟨.ok ⟨given, none⟩, later, state⟩ := by
  rw [feedFrom]
  split <;> simp_all

/-- A consumer is given a failure, and then no more. -/
theorem feedFrom_of_error {s later : Scanner a} {e : LexicalError}
    (h : s.nextToken = (.error e, later)) (consumer : Consumer σ ε) (given : Nat) (state : σ) :
    s.feedFrom consumer given state =
      match consumer.error e state with
      | .ok _ state => ⟨.ok ⟨given, some e⟩, later, state⟩
      | .error refusal state => ⟨.error refusal, later, state⟩ := by
  rw [feedFrom]
  split <;> simp_all

/-- A consumer is given a token with its lexeme, and what is left after it unless it refuses. -/
theorem feedFrom_of_token {s later : Scanner a} {token : Token} {lexeme : String}
    (h : s.nextToken = (.ok (some token), later)) (hlexeme : later.lexeme? token.id = some lexeme)
    (consumer : Consumer σ ε) (given : Nat) (state : σ) :
    s.feedFrom consumer given state =
      match consumer.accept token lexeme state with
      | .ok _ state => later.feedFrom consumer (given + 1) state
      | .error refusal state => ⟨.error refusal, later, state⟩ := by
  rw [feedFrom]
  split <;> simp_all

/-- Feeds a consumer with all that is left of a scan, up to a failure of the scan or a refusal. The
lexeme of every token is in the lexicon, as `lexeme?_isSome` says. -/
def feed (consumer : Consumer σ ε) (s : Scanner a) (state : σ) : Feeding a σ ε :=
  s.feedFrom consumer 0 state

end Scanner

end TableLexer
