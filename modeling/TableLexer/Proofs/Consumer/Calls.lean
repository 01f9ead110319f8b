import TableLexer.Consumer.Basic
import TableLexer.Proofs.Scanner.Stream

/-!
# The calls to a consumer

What a consumer is given cannot be told from its state, since a consumer may keep nothing. So it is
put into another consumer that answers in the same way and writes down every call, also one that is
refused. The log is what `Scanner.calls` answers; that nothing else changes is `feedFrom_logged`.
From it, the calls are told one request for a token at a time.
-/

namespace TableLexer

/-- What a consumer is given at one time. -/
inductive Call where
  /-- A token with its lexeme. -/
  | accept (token : Token) (lexeme : String)
  /-- The failure that ends the scan. -/
  | error (e : LexicalError)
  deriving DecidableEq, Repr

namespace Consumer

variable {σ ε : Type}

/-- An answer to a call, after which the call is written behind the earlier ones. -/
def noting (call : Call) (answer : EStateM ε σ Unit) : EStateM ε (σ × List Call) Unit :=
  fun (state, log) =>
    match answer state with
    | .ok _ state => .ok () (state, log ++ [call])
    | .error refusal state => .error refusal (state, log ++ [call])

/-- A consumer that answers like another one and writes down its calls. -/
def logged (consumer : Consumer σ ε) : Consumer (σ × List Call) ε where
  accept token lexeme := noting (.accept token lexeme) (consumer.accept token lexeme)
  error e := noting (.error e) (consumer.error e)

/-- A token that is given is written down, whether it is taken or refused. -/
theorem logged_accept (consumer : Consumer σ ε) (token : Token) (lexeme : String) (state : σ)
    (log : List Call) : consumer.logged.accept token lexeme (state, log) =
      match consumer.accept token lexeme state with
      | .ok _ state => .ok () (state, log ++ [.accept token lexeme])
      | .error refusal state => .error refusal (state, log ++ [.accept token lexeme]) := rfl

/-- A failure that is given is written down, whether it is taken or refused. -/
theorem logged_error (consumer : Consumer σ ε) (e : LexicalError) (state : σ) (log : List Call) :
    consumer.logged.error e (state, log) =
      match consumer.error e state with
      | .ok _ state => .ok () (state, log ++ [.error e])
      | .error refusal state => .error refusal (state, log ++ [.error e]) := rfl

/-- A consumer that refuses nothing. -/
structure Obliging (consumer : Consumer σ ε) : Prop where
  /-- It takes every token. -/
  accept : ∀ token lexeme state, ∃ later, consumer.accept token lexeme state = .ok () later
  /-- It takes every failure. -/
  error : ∀ e state, ∃ later, consumer.error e state = .ok () later

end Consumer

namespace Scanner

variable {a : Automaton} {σ ε : Type}

/-- The calls to a consumer that is fed with what is left of a scan, in their order. -/
def calls (consumer : Consumer σ ε) (s : Scanner a) (state : σ) : List Call :=
  (s.feed consumer.logged (state, [])).state.2

/-- The log of a consumer grows by the same calls, however it was before. -/
theorem exists_feedFrom_logged (consumer : Consumer σ ε) (s : Scanner a) (state : σ) :
    ∃ calls, ∀ given log, s.feedFrom consumer.logged given (state, log) =
      ⟨(s.feedFrom consumer given state).report, (s.feedFrom consumer given state).scanner,
        ((s.feedFrom consumer given state).state, log ++ calls)⟩ := by
  induction s using transcript.induct generalizing state with
  | case1 s later hnext =>
    refine ⟨[], fun given log => ?_⟩
    rw [feedFrom_of_end hnext, feedFrom_of_end hnext, List.append_nil]
  | case2 s e later hnext =>
    refine ⟨[.error e], fun given log => ?_⟩
    rw [feedFrom_of_error hnext, feedFrom_of_error hnext, Consumer.logged_error]
    cases consumer.error e state <;> rfl
  | case3 s token later hnext ih =>
    obtain ⟨lexeme, hlexeme⟩ := Option.isSome_iff_exists.mp (lexeme?_isSome hnext)
    cases hanswer : consumer.accept token lexeme state with
    | ok _ next =>
      -- taken: the calls after it follow
      obtain ⟨calls, hcalls⟩ := ih next
      refine ⟨.accept token lexeme :: calls, fun given log => ?_⟩
      rw [feedFrom_of_token hnext hlexeme, feedFrom_of_token hnext hlexeme,
        Consumer.logged_accept, hanswer]
      simp only [hcalls, List.append_assoc, List.cons_append, List.nil_append]
    | error refusal next =>
      -- refused: there are no calls after it
      refine ⟨[.accept token lexeme], fun given log => ?_⟩
      rw [feedFrom_of_token hnext hlexeme, feedFrom_of_token hnext hlexeme,
        Consumer.logged_accept, hanswer]

/-- Writing down the calls changes nothing else. -/
theorem feedFrom_logged (consumer : Consumer σ ε) (s : Scanner a) (state : σ) (given : Nat)
    (log : List Call) : s.feedFrom consumer.logged given (state, log) =
      ⟨(s.feedFrom consumer given state).report, (s.feedFrom consumer given state).scanner,
        ((s.feedFrom consumer given state).state, log ++ s.calls consumer state)⟩ := by
  obtain ⟨calls, hcalls⟩ := exists_feedFrom_logged consumer s state
  rw [Scanner.calls, feed, hcalls, hcalls, List.nil_append]

/-- At the end of the source there are no calls. -/
theorem calls_of_end {s later : Scanner a} (h : s.nextToken = (.ok none, later))
    (consumer : Consumer σ ε) (state : σ) : s.calls consumer state = [] := by
  rw [calls, feed, feedFrom_of_end h]

/-- A failure is the only call where the scan has failed. -/
theorem calls_of_error {s later : Scanner a} {e : LexicalError}
    (h : s.nextToken = (.error e, later)) (consumer : Consumer σ ε) (state : σ) :
    s.calls consumer state = [.error e] := by
  rw [calls, feed, feedFrom_of_error h, Consumer.logged_error]
  cases consumer.error e state <;> rfl

/-- A token is the first call, and the last one if it is refused. -/
theorem calls_of_token {s later : Scanner a} {token : Token} {lexeme : String}
    (h : s.nextToken = (.ok (some token), later)) (hlexeme : later.lexeme? token.id = some lexeme)
    (consumer : Consumer σ ε) (state : σ) :
    s.calls consumer state = .accept token lexeme ::
      match consumer.accept token lexeme state with
      | .ok _ state => later.calls consumer state
      | .error _ _ => [] := by
  rw [calls, feed, feedFrom_of_token h hlexeme, Consumer.logged_accept]
  cases consumer.accept token lexeme state with
  | ok _ next => simp only [feedFrom_logged, List.nil_append, List.cons_append]
  | error refusal next => rfl

end Scanner

end TableLexer
