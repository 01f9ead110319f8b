import TableLexer.Consumer.Recorder
import TableLexer.Proofs.Consumer.Calls

/-!
# The life of a scanner

A scanner can be asked for tokens, for items, for all items that are left, and to feed a consumer,
in any order and any number of times. Whatever is asked, it moves ahead in its source and its
lexicon grows at the end, and from the first failure on, or once the source has ended, it does not
change any more. All of this is true of one request for a token, and everything else that can be
asked is made of such requests.
-/

namespace TableLexer

/-- What can be asked of a scanner that goes on afterwards. -/
inductive Operation : Type 1 where
  /-- The next token. -/
  | nextToken
  /-- The next item. -/
  | next
  /-- All items that are left. -/
  | tokenize
  /-- To feed a consumer in a given state. -/
  | feed {σ ε : Type} (consumer : Consumer σ ε) (state : σ)

namespace Scanner

variable {a : Automaton}

/-- The scanner after an operation. -/
def perform (s : Scanner a) : Operation → Scanner a
  | .nextToken => s.nextToken.2
  | .next => s.next.2
  | .tokenize => s.tokenize.2
  | .feed consumer state => (s.feed consumer state).scanner

/-- The scanner after operations, one after the other. -/
def performAll (s : Scanner a) (operations : List Operation) : Scanner a :=
  operations.foldl perform s

/-- Whether an operation meets a failure: it answers the failure, or it gives the failure to a
consumer. -/
def Meets (s : Scanner a) (e : LexicalError) : Operation → Prop
  | .nextToken => s.nextToken.1 = .error e
  | .next => s.next.1 = some (.error e)
  | .tokenize => s.tokenize.1 = .error e
  | .feed consumer state => .error e ∈ s.calls consumer state

/-- A scanner may come after another one: it reads the same source, from the same place or further
ahead, and knows all of the lexemes. After a scanner that stands still there is no other. -/
structure Precedes (s later : Scanner a) : Prop where
  /-- The source is the same. -/
  source_eq : later.source = s.source
  /-- The scanner does not go back. -/
  position_le : s.position ≤ later.position
  /-- The lexicon grows at its end only. -/
  lexicon_extends : later.lexicon.Extends s.lexicon
  /-- A scanner that a request for a token does not change is not changed by anything. -/
  still : s.nextToken.2 = s → later = s

/-- A scanner may come after itself. -/
theorem Precedes.refl (s : Scanner a) : s.Precedes s :=
  ⟨rfl, Nat.le_refl _, Lexicon.Extends.refl _, fun _ => rfl⟩

/-- What may come after a later scanner may come after the first one. -/
theorem Precedes.trans {s middle later : Scanner a} (h : s.Precedes middle)
    (hlater : middle.Precedes later) : s.Precedes later where
  source_eq := hlater.source_eq.trans h.source_eq
  position_le := Nat.le_trans h.position_le hlater.position_le
  lexicon_extends := hlater.lexicon_extends.trans h.lexicon_extends
  still := by
    intro hstill
    obtain rfl := h.still hstill
    exact hlater.still hstill

/-- A request for a token leaves a scanner that may come after. -/
theorem precedes_of_nextToken {s later : Scanner a} {answer : Except LexicalError (Option Token)}
    (h : s.nextToken = (answer, later)) : s.Precedes later where
  source_eq := by
    cases moves_of_nextToken h with
    | token _ _ hmoves | ended _ _ hmoves | stuck _ _ hmoves => exact hmoves.source_eq
    | failed => rfl
  position_le := by
    cases moves_of_nextToken h with
    | token _ _ hmoves | ended _ _ hmoves | stuck _ _ hmoves =>
      rw [hmoves.position_eq]
      exact Nat.le_add_right _ _
    | failed => exact Nat.le_refl _
  lexicon_extends := (moves_of_nextToken h).extends
  still := by
    intro hstill
    rw [h] at hstill
    exact hstill

/-- A scanner reaches another one by requests for tokens, any number of them. -/
inductive Reaches : Scanner a → Scanner a → Prop
  /-- No request is made. -/
  | refl (s : Scanner a) : Reaches s s
  /-- A request is made, and more may follow. -/
  | step {s later : Scanner a} (h : Reaches s.nextToken.2 later) : Reaches s later

/-- Requests that follow other requests are requests of the first scanner. -/
theorem Reaches.trans {s middle later : Scanner a} (h : s.Reaches middle)
    (hlater : middle.Reaches later) : s.Reaches later := by
  induction h with
  | refl => exact hlater
  | step _ ih => exact .step (ih hlater)

/-- A single request for a token is one of any number. -/
theorem reaches_of_nextToken {s later : Scanner a} {answer : Except LexicalError (Option Token)}
    (h : s.nextToken = (answer, later)) : s.Reaches later := by
  apply Reaches.step
  rw [h]
  exact .refl later

/-- A request for an item is a request for a token, or none after a failure. -/
theorem reaches_of_next {s later : Scanner a} {item : Option (Except LexicalError Token)}
    (h : s.next = (item, later)) : s.Reaches later := by
  cases hfailure : s.failure with
  | some e =>
    obtain ⟨-, rfl⟩ := Prod.mk.inj ((next_of_failure hfailure).symm.trans h)
    exact .refl s
  | none =>
    obtain ⟨-, rfl⟩ := Prod.mk.inj ((next_of_nextToken hfailure rfl).symm.trans h)
    exact reaches_of_nextToken rfl

/-- A request for all items is made of requests for tokens. -/
theorem reaches_tokenize (s : Scanner a) : s.Reaches s.tokenize.2 := by
  induction s using tokenize.induct with
  | case1 s later hnext =>
    rw [tokenize_of_none hnext]
    exact reaches_of_next hnext
  | case2 s e later hnext =>
    rw [tokenize_of_error hnext]
    exact reaches_of_next hnext
  | case3 s token later hnext _ _ _ ih =>
    rw [tokenize_of_token hnext]
    exact (reaches_of_next hnext).trans ih

/-- Whether a consumer refuses what it is given or not, the scanner behind the feeding is
reached. -/
theorem reaches_feedFrom {σ ε : Type} (consumer : Consumer σ ε) (given : Nat) (s : Scanner a)
    (state : σ) : s.Reaches (s.feedFrom consumer given state).scanner := by
  induction s using transcript.induct generalizing given state with
  | case1 s later hnext =>
    rw [feedFrom_of_end hnext]
    exact reaches_of_nextToken hnext
  | case2 s e later hnext =>
    rw [feedFrom_of_error hnext]
    cases consumer.error e state <;> exact reaches_of_nextToken hnext
  | case3 s token later hnext ih =>
    obtain ⟨lexeme, hlexeme⟩ := Option.isSome_iff_exists.mp (lexeme?_isSome hnext)
    rw [feedFrom_of_token hnext hlexeme]
    cases consumer.accept token lexeme state with
    | ok _ next => exact (reaches_of_nextToken hnext).trans (ih _ _)
    | error refusal next => exact reaches_of_nextToken hnext

/-- Every operation is made of requests for tokens. -/
theorem reaches_perform (s : Scanner a) (operation : Operation) :
    s.Reaches (s.perform operation) := by
  cases operation with
  | nextToken => exact reaches_of_nextToken rfl
  | next => exact reaches_of_next rfl
  | tokenize => exact s.reaches_tokenize
  | feed consumer state => exact s.reaches_feedFrom consumer 0 state

/-- Whatever is asked of a scanner is made of requests for tokens. -/
theorem reaches_performAll (s : Scanner a) (operations : List Operation) :
    s.Reaches (s.performAll operations) := by
  induction operations generalizing s with
  | nil => exact .refl s
  | cons operation operations ih => exact (s.reaches_perform operation).trans (ih _)

/-- A scanner that is reached may come after the first one. -/
theorem Reaches.precedes {s later : Scanner a} (h : s.Reaches later) : s.Precedes later := by
  induction h with
  | refl s => exact .refl s
  | step _ ih => exact (precedes_of_nextToken rfl).trans ih

/-- The scanner behind any operations may come after the first one. -/
theorem precedes_performAll (s : Scanner a) (operations : List Operation) :
    s.Precedes (s.performAll operations) :=
  (s.reaches_performAll operations).precedes

/-- A failure that is answered as an item is kept. -/
theorem failure_of_next {s later : Scanner a} {e : LexicalError}
    (h : s.next = (some (.error e), later)) : later.failure = some e := by
  cases hfailure : s.failure with
  | some e' => simp [next_of_failure hfailure] at h
  | none =>
    cases hnext : s.nextToken with
    | mk answer after =>
      rw [next_of_nextToken hfailure hnext] at h
      obtain ⟨hanswer, rfl⟩ := Prod.mk.inj h
      cases answer with
      | error e' =>
        cases hanswer
        exact failure_of_error hnext
      | ok token => simp at hanswer

/-- A failure that is answered to a request for all items is kept. -/
theorem failure_of_tokenize {s : Scanner a} {e : LexicalError} (h : s.tokenize.1 = .error e) :
    s.tokenize.2.failure = some e := by
  induction s using tokenize.induct with
  | case1 s later hnext => simp [tokenize_of_none hnext] at h
  | case2 s e' later hnext =>
    rw [tokenize_of_error hnext] at h ⊢
    cases h
    exact failure_of_next hnext
  | case3 s token later hnext _ _ _ ih =>
    rw [tokenize_of_token hnext] at h ⊢
    apply ih
    cases hlater : later.tokenize.1 with
    | error e' =>
      rw [hlater] at h
      cases h
      rfl
    | ok tokens =>
      rw [hlater] at h
      cases h

/-- A failure that a consumer is given is that of the scanner behind the feeding. -/
theorem failure_of_mem_calls {σ ε : Type} {consumer : Consumer σ ε} {given : Nat} {s : Scanner a}
    {state : σ} {e : LexicalError} (h : .error e ∈ s.calls consumer state) :
    (s.feedFrom consumer given state).scanner.failure = some e := by
  induction s using transcript.induct generalizing given state with
  | case1 s later hnext => simp [calls_of_end hnext] at h
  | case2 s e' later hnext =>
    rw [calls_of_error hnext, List.mem_singleton] at h
    cases h
    rw [feedFrom_of_error hnext]
    cases consumer.error e state <;> exact failure_of_error hnext
  | case3 s token later hnext ih =>
    obtain ⟨lexeme, hlexeme⟩ := Option.isSome_iff_exists.mp (lexeme?_isSome hnext)
    rw [calls_of_token hnext hlexeme] at h
    rw [feedFrom_of_token hnext hlexeme]
    cases hanswer : consumer.accept token lexeme state with
    | ok _ next =>
      simp only [hanswer, List.mem_cons, reduceCtorEq, false_or] at h
      exact ih h
    | error refusal next => simp [hanswer] at h

/-- A scanner keeps a failure that an operation meets. -/
theorem failure_of_meets {s : Scanner a} {e : LexicalError} {operation : Operation}
    (h : s.Meets e operation) : (s.perform operation).failure = some e := by
  cases operation with
  | nextToken => exact failure_of_error (Prod.ext h rfl)
  | next => exact failure_of_next (Prod.ext h rfl)
  | tokenize => exact failure_of_tokenize h
  | feed consumer state => exact failure_of_mem_calls h

/-- What a scanner that has failed answers to everything. -/
structure Repeats (s : Scanner a) (e : LexicalError) : Prop where
  /-- It keeps the failure. -/
  failure_eq : s.failure = some e
  /-- It stands at the place of the failure. -/
  position_eq : s.position = e.position
  /-- It answers the failure to every request for a token. -/
  nextToken_eq : s.nextToken = (.error e, s)
  /-- It has no further items. -/
  next_eq : s.next = (none, s)
  /-- No items are left of it. -/
  tokenize_eq : s.tokenize = (.ok [], s)
  /-- Its transcript has no tokens, and the failure. -/
  transcript_eq : s.transcript = ⟨[], s.lexicon, some e⟩
  /-- A consumer is given the failure and nothing else. -/
  calls_eq : ∀ {σ ε : Type} (consumer : Consumer σ ε) (state : σ),
    s.calls consumer state = [.error e]
  /-- A consumer that takes the failure has been given no tokens. -/
  feed_eq : ∀ {σ ε : Type} (consumer : Consumer σ ε) (state : σ), s.feed consumer state =
    match consumer.error e state with
    | .ok _ state => ⟨.ok ⟨0, some e⟩, s, state⟩
    | .error refusal state => ⟨.error refusal, s, state⟩

/-- A scanner that has failed repeats its failure. -/
theorem repeats_of_failure {s : Scanner a} {e : LexicalError} (h : s.failure = some e) :
    s.Repeats e where
  failure_eq := h
  position_eq := (s.failure_at e h).symm
  nextToken_eq := nextToken_of_failure h
  next_eq := next_of_failure h
  tokenize_eq := tokenize_of_none (next_of_failure h)
  transcript_eq := transcript_of_error (nextToken_of_failure h)
  calls_eq := fun consumer state => calls_of_error (nextToken_of_failure h) consumer state
  feed_eq := fun consumer state => feedFrom_of_error (nextToken_of_failure h) consumer 0 state

/-- Whatever a scanner has behind it, operations keep its source, do not move it back or past the
end, and leave every lexeme its number. When an operation has met a failure, the scanner is the same
after all later operations and repeats the failure. When a request for a token has been answered
with the end of the source, the scanner is the same after all later operations, too, and repeats
that answer with all of the source behind it. -/
theorem performAll_lifecycle (s : Scanner a) (operations : List Operation) :
    ((s.performAll operations).source = s.source ∧
      s.position ≤ (s.performAll operations).position ∧
      (s.performAll operations).position ≤ s.source.length ∧
      (s.performAll operations).lexicon.Extends s.lexicon ∧
      ∀ id text, s.lexeme? id = some text → (s.performAll operations).lexeme? id = some text) ∧
    (∀ operation e, s.Meets e operation →
      (s.perform operation).performAll operations = s.perform operation ∧
        (s.perform operation).Repeats e) ∧
    ∀ later, s.nextToken = (.ok none, later) →
      later.performAll operations = later ∧ later.position = s.source.length ∧
        later.nextToken = (.ok none, later) := by
  have hprecedes := s.precedes_performAll operations
  refine ⟨⟨hprecedes.source_eq, hprecedes.position_le, ?_, hprecedes.lexicon_extends, ?_⟩, ?_, ?_⟩
  · rw [← hprecedes.source_eq]
    exact (s.performAll operations).position_le
  · intro id text htext
    exact hprecedes.lexicon_extends.text? htext
  · intro operation e hmeets
    have hrepeats := repeats_of_failure (failure_of_meets hmeets)
    refine ⟨?_, hrepeats⟩
    apply ((s.perform operation).precedes_performAll operations).still
    rw [hrepeats.nextToken_eq]
  · intro later hnext
    have hagain := nextToken_again hnext
    refine ⟨?_, ?_, hagain⟩
    · apply (later.precedes_performAll operations).still
      rw [hagain]
    · have hlength := later.length_rest
      have hle := later.position_le
      have hsource := (precedes_of_nextToken hnext).source_eq
      rw [(rest_of_end hnext).1, List.length_nil, hsource] at hlength
      rw [hsource] at hle
      omega

/-- A point that no number is before is a failure, which a consumer refuses. Behind a digit and a
blank the source ends: the scanner that has read the digit is at the end of both bytes when it is
asked again, and it stays there. -/
theorem performAll_lifecycle_numerals :
    ((ofSource Automaton.numerals [0x2E]).Meets ⟨0⟩ (.feed (Consumer.recorder none true) {}) ∧
      (((ofSource Automaton.numerals [0x2E]).perform
        (.feed (Consumer.recorder none true) {})).performAll [.tokenize, .next]).Repeats ⟨0⟩) ∧
    ∃ token read ended,
      (ofSource Automaton.numerals [0x31, 0x20]).nextToken = (.ok (some token), read) ∧
      read.nextToken = (.ok none, ended) ∧
      ended.performAll [.tokenize, .next] = ended ∧ ended.position = 2 ∧
        ended.nextToken = (.ok none, ended) := by
  constructor
  · have hpoint : Automaton.numerals.munch [0x2E] = .stuck 0 := by decide +kernel
    obtain ⟨later, hnext, -⟩ :=
      nextToken_of_stuck (s := ofSource Automaton.numerals [0x2E]) rfl hpoint
    have hmeets : (ofSource Automaton.numerals [0x2E]).Meets ⟨0⟩
        (.feed (Consumer.recorder none true) {}) := by
      rw [Meets, calls_of_error hnext]
      exact List.mem_singleton_self _
    obtain ⟨-, hfailed, -⟩ :=
      performAll_lifecycle (ofSource Automaton.numerals [0x2E]) [.tokenize, .next]
    obtain ⟨hsame, hrepeats⟩ := hfailed _ _ hmeets
    rw [hsame]
    exact ⟨hmeets, hrepeats⟩
  · have hdigit : Automaton.numerals.munch [0x31, 0x20] = .lexeme 0 1 .integerLiteral := by
      decide +kernel
    have hblank : Automaton.numerals.Skips [0x20] := by
      rw [Automaton.Skips]
      decide +kernel
    obtain ⟨read, hread, hmoves⟩ :=
      nextToken_of_lexeme (s := ofSource Automaton.numerals [0x31, 0x20]) rfl hdigit
    have hrest : read.rest = [0x20] := by
      rw [read.rest_eq, hmoves.source_eq, hmoves.position_eq]
      rfl
    obtain ⟨ended, hended, -⟩ := nextToken_of_skips hmoves.failure_eq (hrest ▸ hblank)
    obtain ⟨-, -, hlast⟩ := performAll_lifecycle read [.tokenize, .next]
    obtain ⟨hsame, hposition, hagain⟩ := hlast ended hended
    rw [hmoves.source_eq] at hposition
    exact ⟨_, read, ended, hread, hended, hsame, hposition, hagain⟩

end Scanner

end TableLexer
