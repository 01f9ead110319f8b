import TableLexer.Proofs.Consumer.Agreement
import TableLexer.Proofs.Scanner.Lifecycle
import TableLexer.Proofs.Scanner.Words

/-!
# Consumers one after the other

A refusal ends the feeding of a consumer, but not the scan: another consumer can be fed from there.
However often this happens, and whatever the consumers are, the tokens that they are given one after
the other are those of the stream, without gaps and without repetitions. The refused token counts as
given. The course of one feeding is told first, up to the place where the scanner is left; what is
given to many follows, because what one leaves is what the next one finds.
-/

namespace TableLexer

/-- The call that gives a token with its lexeme. -/
def Call.give (pair : Token × String) : Call := .accept pair.1 pair.2

/-- The token that a call gives, with its lexeme. -/
def Call.given? : Call → Option (Token × String)
  | .accept token lexeme => some (token, lexeme)
  | .error _ => none

/-- The calls that give tokens give just these. -/
theorem Call.filterMap_given? (pairs : List (Token × String)) :
    (pairs.map Call.give).filterMap Call.given? = pairs := by
  rw [List.filterMap_map]
  exact List.filterMap_some

/-- A failure behind tokens gives none. -/
theorem Call.filterMap_given?_error (pairs : List (Token × String)) (e : LexicalError) :
    (pairs.map Call.give ++ [Call.error e]).filterMap Call.given? = pairs := by
  rw [List.filterMap_append, Call.filterMap_given?]
  exact List.append_nil pairs

namespace Consumer

variable {σ ε : Type}

/-- The answer of a consumer to a call. -/
def answer (consumer : Consumer σ ε) : Call → EStateM ε σ Unit
  | .accept token lexeme => consumer.accept token lexeme
  | .error e => consumer.error e

/-- A consumer takes calls one after the other without a refusal, from one state to another. -/
inductive Takes (consumer : Consumer σ ε) : σ → List Call → σ → Prop
  /-- There are no calls. -/
  | nil (state : σ) : Takes consumer state [] state
  /-- A call is taken, and then the others. -/
  | cons {state next later : σ} {call : Call} {calls : List Call}
      (h : consumer.answer call state = .ok () next) (hrest : Takes consumer next calls later) :
      Takes consumer state (call :: calls) later

end Consumer

namespace Scanner

variable {a : Automaton} {σ ε : Type}

/-- Requests for tokens lead from a scanner to a later one, and are answered with tokens whose
lexemes the scanner knows at the time. -/
inductive Passes : Scanner a → List (Token × String) → Scanner a → Prop
  /-- No request is made. -/
  | nil (s : Scanner a) : Passes s [] s
  /-- A token is answered, and the requests go on after it. -/
  | cons {s middle later : Scanner a} {token : Token} {lexeme : String}
      {pairs : List (Token × String)} (h : s.nextToken = (.ok (some token), middle))
      (hlexeme : middle.lexeme? token.id = some lexeme) (hrest : Passes middle pairs later) :
      Passes s ((token, lexeme) :: pairs) later

/-- A scanner that has no further token. -/
def Rests (s : Scanner a) : Prop := ∀ token later, s.nextToken ≠ (.ok (some token), later)

/-- A scanner at the end of its source has no further token, neither before the answer nor after. -/
theorem rests_of_end {s later : Scanner a} (h : s.nextToken = (.ok none, later)) :
    s.Rests ∧ later.Rests := by
  constructor
  · intro token next hnext
    simp [h] at hnext
  · intro token next hnext
    simp [nextToken_again h] at hnext

/-- A scanner that meets a failure has no further token, neither before the answer nor after. -/
theorem rests_of_error {s later : Scanner a} {e : LexicalError}
    (h : s.nextToken = (.error e, later)) : s.Rests ∧ later.Rests := by
  constructor
  · intro token next hnext
    simp [h] at hnext
  · intro token next hnext
    simp [nextToken_of_failure (failure_of_error h)] at hnext

/-- What a scanner passes on the way to its end goes on behind anything that it passes. -/
theorem Passes.remainder {s later last : Scanner a} {front pairs : List (Token × String)}
    (h : s.Passes front later) (hall : s.Passes pairs last) (hrests : last.Rests) :
    ∃ left, front ++ left = pairs ∧ later.Passes left last := by
  induction h generalizing pairs with
  | nil s => exact ⟨pairs, rfl, hall⟩
  | cons hnext hlexeme _ ih =>
    cases hall with
    | nil => exact absurd hnext (hrests _ _)
    | cons hnext' hlexeme' hrest' =>
      obtain ⟨htoken, rfl⟩ := Prod.mk.inj (hnext.symm.trans hnext')
      obtain rfl := Option.some.inj (Except.ok.inj htoken)
      obtain rfl := Option.some.inj (hlexeme.symm.trans hlexeme')
      obtain ⟨left, rfl, hleft⟩ := ih hrest'
      exact ⟨left, rfl, hleft⟩

/-- What a scanner passes on the way to a scanner that has no further token is always the same. -/
theorem Passes.unique {s later last : Scanner a} {front pairs : List (Token × String)}
    (h : s.Passes front later) (hlater : later.Rests) (hall : s.Passes pairs last)
    (hrests : last.Rests) : front = pairs := by
  obtain ⟨left, rfl, hleft⟩ := h.remainder hall hrests
  cases hleft with
  | nil => exact (List.append_nil front).symm
  | cons hnext _ _ => exact absurd hnext (hlater _ _)

/-- The tokens of a transcript are passed on the way to the end of the scan, with the lexemes that
the transcript tells. -/
theorem exists_passes (s : Scanner a) :
    ∃ pairs last, s.Passes pairs last ∧ last.Rests ∧ pairs.map Prod.fst = s.transcript.tokens ∧
      pairs.map (fun pair => s.transcript.lexeme? pair.1) = pairs.map fun pair => some pair.2 := by
  induction s using transcript.induct with
  | case1 s later hnext =>
    rw [transcript_of_end hnext]
    exact ⟨[], s, .nil s, (rests_of_end hnext).1, rfl, rfl⟩
  | case2 s e later hnext =>
    rw [transcript_of_error hnext]
    exact ⟨[], s, .nil s, (rests_of_error hnext).1, rfl, rfl⟩
  | case3 s token later hnext ih =>
    obtain ⟨pairs, last, hpasses, hrests, htokens, hlexemes⟩ := ih
    obtain ⟨lexeme, hlexeme⟩ := Option.isSome_iff_exists.mp (lexeme?_isSome hnext)
    have hkept : later.transcript.lexeme? token = some lexeme :=
      later.transcript_extends.text? hlexeme
    rw [transcript_of_token hnext]
    refine ⟨(token, lexeme) :: pairs, last, .cons hnext hlexeme hpasses, hrests, ?_, ?_⟩
    · rw [List.map_cons, htokens]
    · rw [List.map_cons, List.map_cons, ← hlexemes]
      exact congrArg (· :: _) hkept

/-- The course of the feeding of a consumer that has been given some tokens already: the calls to
it, and how the feeding ends. -/
inductive Course (consumer : Consumer σ ε) (given : Nat) (s : Scanner a) (state : σ) :
    List Call → Feeding a σ ε → Prop
  /-- All tokens are taken, and the source ends. -/
  | ended {pairs : List (Token × String)} {last final : Scanner a} {later : σ}
      (hpasses : s.Passes pairs last) (hnext : last.nextToken = (.ok none, final))
      (htakes : consumer.Takes state (pairs.map Call.give) later) :
      Course consumer given s state (pairs.map Call.give)
        ⟨.ok ⟨given + pairs.length, none⟩, final, later⟩
  /-- All tokens are taken, and the failure of the scan is, too. -/
  | failed {pairs : List (Token × String)} {e : LexicalError} {last final : Scanner a} {later : σ}
      (hpasses : s.Passes pairs last) (hnext : last.nextToken = (.error e, final))
      (hrepeats : final.Repeats e)
      (htakes : consumer.Takes state (pairs.map Call.give ++ [.error e]) later) :
      Course consumer given s state (pairs.map Call.give ++ [.error e])
        ⟨.ok ⟨given + pairs.length, some e⟩, final, later⟩
  /-- A token is refused: it was the last call, and the scanner is left right behind it. -/
  | tokenRefused {pairs : List (Token × String)} {token : Token} {lexeme : String} {refusal : ε}
      {later : Scanner a} {before after : σ}
      (hpasses : s.Passes (pairs ++ [(token, lexeme)]) later)
      (htakes : consumer.Takes state (pairs.map Call.give) before)
      (hrefused : consumer.accept token lexeme before = .error refusal after) :
      Course consumer given s state (pairs.map Call.give ++ [.accept token lexeme])
        ⟨.error refusal, later, after⟩
  /-- All tokens are taken, but the failure is refused: the scanner keeps it. -/
  | failureRefused {pairs : List (Token × String)} {e : LexicalError} {refusal : ε}
      {last final : Scanner a} {before after : σ}
      (hpasses : s.Passes pairs last) (hnext : last.nextToken = (.error e, final))
      (hrepeats : final.Repeats e)
      (htakes : consumer.Takes state (pairs.map Call.give) before)
      (hrefused : consumer.error e before = .error refusal after) :
      Course consumer given s state (pairs.map Call.give ++ [.error e])
        ⟨.error refusal, final, after⟩

/-- Before the course of a feeding, a token may be taken. -/
theorem Course.cons {consumer : Consumer σ ε} {given : Nat} {s later : Scanner a} {token : Token}
    {lexeme : String} {state next : σ} {calls : List Call} {feeding : Feeding a σ ε}
    (h : s.nextToken = (.ok (some token), later)) (hlexeme : later.lexeme? token.id = some lexeme)
    (htaken : consumer.accept token lexeme state = .ok () next)
    (hcourse : Course consumer (given + 1) later next calls feeding) :
    Course consumer given s state (.accept token lexeme :: calls) feeding := by
  have hcount : ∀ pairs : List (Token × String),
      given + 1 + pairs.length = given + ((token, lexeme) :: pairs).length := by
    intro pairs
    rw [List.length_cons]
    omega
  cases hcourse with
  | ended hpasses hnext htakes =>
    rw [hcount]
    exact .ended (.cons h hlexeme hpasses) hnext (.cons htaken htakes)
  | failed hpasses hnext hrepeats htakes =>
    rw [hcount]
    exact .failed (.cons h hlexeme hpasses) hnext hrepeats (.cons htaken htakes)
  | @tokenRefused pairs refused text _ _ _ _ hpasses htakes hrefused =>
    have hfront : s.Passes (((token, lexeme) :: pairs) ++ [(refused, text)]) _ :=
      .cons h hlexeme hpasses
    exact .tokenRefused hfront (.cons htaken htakes) hrefused
  | failureRefused hpasses hnext hrepeats htakes hrefused =>
    exact .failureRefused (.cons h hlexeme hpasses) hnext hrepeats (.cons htaken htakes) hrefused

/-- Whatever the consumer, its feeding takes one of the four courses. -/
theorem course_feedFrom (consumer : Consumer σ ε) (given : Nat) (s : Scanner a) (state : σ) :
    Course consumer given s state (s.calls consumer state) (s.feedFrom consumer given state) := by
  induction s using transcript.induct generalizing given state with
  | case1 s later hnext =>
    rw [calls_of_end hnext, feedFrom_of_end hnext]
    exact .ended (.nil s) hnext (.nil state)
  | case2 s e later hnext =>
    have hrepeats := repeats_of_failure (failure_of_error hnext)
    rw [calls_of_error hnext, feedFrom_of_error hnext]
    cases hanswer : consumer.error e state with
    | ok _ next => exact .failed (.nil s) hnext hrepeats (.cons hanswer (.nil next))
    | error refusal next => exact .failureRefused (.nil s) hnext hrepeats (.nil state) hanswer
  | case3 s token later hnext ih =>
    obtain ⟨lexeme, hlexeme⟩ := Option.isSome_iff_exists.mp (lexeme?_isSome hnext)
    rw [calls_of_token hnext hlexeme, feedFrom_of_token hnext hlexeme]
    cases hanswer : consumer.accept token lexeme state with
    | ok _ next => exact (ih (given + 1) next).cons hnext hlexeme hanswer
    | error refusal next =>
      have hpasses : s.Passes ([] ++ [(token, lexeme)]) later := .cons hnext hlexeme (.nil later)
      have htakes : consumer.Takes state (([] : List (Token × String)).map Call.give) state :=
        .nil state
      exact .tokenRefused hpasses htakes hanswer

/-- A consumer that takes the tokens that a scanner passes is fed on behind them. -/
theorem Passes.feedFrom_eq {s later : Scanner a} {pairs : List (Token × String)}
    {consumer : Consumer σ ε} {state next : σ} (h : s.Passes pairs later)
    (htakes : consumer.Takes state (pairs.map Call.give) next) (given : Nat) :
    s.feedFrom consumer given state =
      later.feedFrom consumer (given + pairs.length) next := by
  induction h generalizing state given with
  | nil s =>
    cases htakes
    rfl
  | @cons _ _ _ token lexeme pairs hnext hlexeme _ ih =>
    cases htakes with
    | @cons _ middle _ _ _ htaken hrest =>
      have haccepted : consumer.accept token lexeme state = .ok () middle := htaken
      have hcount : given + 1 + pairs.length = given + ((token, lexeme) :: pairs).length := by
        rw [List.length_cons]
        omega
      rw [feedFrom_of_token hnext hlexeme, haccepted, ← hcount]
      exact ih hrest (given + 1)

/-- The calls of a feeding give tokens, and after the last one at most a failure. -/
theorem Course.exists_calls {consumer : Consumer σ ε} {given : Nat} {s : Scanner a} {state : σ}
    {calls : List Call} {feeding : Feeding a σ ε}
    (h : Course consumer given s state calls feeding) :
    ∃ (pairs : List (Token × String)) (error : Option LexicalError),
      calls = pairs.map Call.give ++ error.toList.map .error := by
  cases h with
  | @ended pairs => exact ⟨pairs, none, (List.append_nil _).symm⟩
  | @failed pairs e => exact ⟨pairs, some e, rfl⟩
  | @tokenRefused pairs token lexeme =>
    exact ⟨pairs ++ [(token, lexeme)], none, by simp [Call.give]⟩
  | @failureRefused pairs e => exact ⟨pairs, some e, rfl⟩

/-- Why a feeding breaks off, when it is checked that every number has a lexeme. -/
inductive Interruption (ε : Type) where
  /-- The consumer refuses what it is given. -/
  | refused (refusal : ε)
  /-- The lexicon does not know the number of a token. -/
  | unknown (id : TokenId)

/-- Feeds a consumer, and breaks off before a token whose number the lexicon does not know. -/
def feedChecked (consumer : Consumer σ ε) (given : Nat) (s : Scanner a) (state : σ) :
    Feeding a σ (Interruption ε) :=
  match _hnext : s.nextToken with
  | (.ok none, later) => ⟨.ok ⟨given, none⟩, later, state⟩
  | (.error e, later) =>
    match consumer.error e state with
    | .ok _ state => ⟨.ok ⟨given, some e⟩, later, state⟩
    | .error refusal state => ⟨.error (.refused refusal), later, state⟩
  | (.ok (some token), later) =>
    match later.lexeme? token.id with
    | none => ⟨.error (.unknown token.id), later, state⟩
    | some lexeme =>
      match consumer.accept token lexeme state with
      | .ok _ state => later.feedChecked consumer (given + 1) state
      | .error refusal state => ⟨.error (.refused refusal), later, state⟩
termination_by s.rest.length
decreasing_by exact length_rest_lt _hnext

/-- At the end of the source, the feeding ends with the number of tokens that were given. -/
theorem feedChecked_of_end {s later : Scanner a} (h : s.nextToken = (.ok none, later))
    (consumer : Consumer σ ε) (given : Nat) (state : σ) :
    s.feedChecked consumer given state = ⟨.ok ⟨given, none⟩, later, state⟩ := by
  rw [feedChecked]
  split <;> simp_all

/-- A failure is given to the consumer, and the feeding ends. -/
theorem feedChecked_of_error {s later : Scanner a} {e : LexicalError}
    (h : s.nextToken = (.error e, later)) (consumer : Consumer σ ε) (given : Nat) (state : σ) :
    s.feedChecked consumer given state =
      match consumer.error e state with
      | .ok _ state => ⟨.ok ⟨given, some e⟩, later, state⟩
      | .error refusal state => ⟨.error (.refused refusal), later, state⟩ := by
  rw [feedChecked]
  split <;> simp_all

/-- A token whose number is known is given to the consumer, and the feeding goes on if it is taken.
-/
theorem feedChecked_of_token {s later : Scanner a} {token : Token} {lexeme : String}
    (h : s.nextToken = (.ok (some token), later)) (hlexeme : later.lexeme? token.id = some lexeme)
    (consumer : Consumer σ ε) (given : Nat) (state : σ) :
    s.feedChecked consumer given state =
      match consumer.accept token lexeme state with
      | .ok _ state => later.feedChecked consumer (given + 1) state
      | .error refusal state => ⟨.error (.refused refusal), later, state⟩ := by
  rw [feedChecked]
  split <;> simp_all

/-- The check never breaks off a feeding: it ends as it does without the check, with the refusal of
the consumer if anything. -/
theorem feedChecked_eq (consumer : Consumer σ ε) (given : Nat) (s : Scanner a) (state : σ) :
    s.feedChecked consumer given state =
      ⟨(s.feedFrom consumer given state).report.mapError .refused,
        (s.feedFrom consumer given state).scanner, (s.feedFrom consumer given state).state⟩ := by
  induction s using transcript.induct generalizing given state with
  | case1 s later hnext =>
    rw [feedChecked_of_end hnext, feedFrom_of_end hnext]
    rfl
  | case2 s e later hnext =>
    rw [feedChecked_of_error hnext, feedFrom_of_error hnext]
    cases consumer.error e state <;> rfl
  | case3 s token later hnext ih =>
    obtain ⟨lexeme, hlexeme⟩ := Option.isSome_iff_exists.mp (lexeme?_isSome hnext)
    rw [feedChecked_of_token hnext hlexeme, feedFrom_of_token hnext hlexeme]
    cases consumer.accept token lexeme state with
    | ok _ next => exact ih (given + 1) next
    | error refusal next => rfl

/-- Of the tokens ahead of a scanner, a feeding gives the first ones, and leaves a scanner with the
others ahead. There are none left if nothing is refused. -/
theorem Course.given_append {consumer : Consumer σ ε} {given : Nat} {s last : Scanner a} {state : σ}
    {calls : List Call} {feeding : Feeding a σ ε} {pairs : List (Token × String)}
    (h : Course consumer given s state calls feeding) (hall : s.Passes pairs last)
    (hrests : last.Rests) :
    ∃ left final, calls.filterMap Call.given? ++ left = pairs ∧
      feeding.scanner.Passes left final ∧ final.Rests ∧
      ∀ delivery, feeding.report = .ok delivery → left = [] := by
  cases h with
  | ended hpasses hnext _ =>
    obtain rfl := hpasses.unique (rests_of_end hnext).1 hall hrests
    rw [Call.filterMap_given?]
    exact ⟨[], _, List.append_nil _, .nil _, (rests_of_end hnext).2, fun _ _ => rfl⟩
  | failed hpasses hnext _ _ =>
    obtain rfl := hpasses.unique (rests_of_error hnext).1 hall hrests
    rw [Call.filterMap_given?_error]
    exact ⟨[], _, List.append_nil _, .nil _, (rests_of_error hnext).2, fun _ _ => rfl⟩
  | tokenRefused hpasses _ _ =>
    obtain ⟨left, rfl, hleft⟩ := hpasses.remainder hall hrests
    rw [List.filterMap_append, Call.filterMap_given?]
    exact ⟨left, last, rfl, hleft, hrests, by simp⟩
  | failureRefused hpasses hnext _ _ _ =>
    obtain rfl := hpasses.unique (rests_of_error hnext).1 hall hrests
    rw [Call.filterMap_given?_error]
    exact ⟨[], _, List.append_nil _, .nil _, (rests_of_error hnext).2, fun _ _ => rfl⟩

end Scanner

/-- A consumer in the state in which it is fed. -/
structure Recipient : Type 1 where
  /-- What the consumer remembers. -/
  Memory : Type
  /-- What it refuses with. -/
  Refusal : Type
  /-- The consumer. -/
  consumer : Consumer Memory Refusal
  /-- Its state before it is fed. -/
  memory : Memory

namespace Scanner

variable {a : Automaton}

/-- Feeds a recipient. -/
def serve (s : Scanner a) (recipient : Recipient) :
    Feeding a recipient.Memory recipient.Refusal :=
  s.feed recipient.consumer recipient.memory

/-- The calls to a recipient that is fed. -/
def callsTo (s : Scanner a) (recipient : Recipient) : List Call :=
  s.calls recipient.consumer recipient.memory

/-- The scanner after feeding recipients, one after the other. -/
def serveAll (s : Scanner a) (recipients : List Recipient) : Scanner a :=
  recipients.foldl (fun s recipient => (s.serve recipient).scanner) s

/-- All tokens that recipients are given one after the other, with their lexemes. It makes no
difference whether a token is taken or refused. -/
def givenTo (s : Scanner a) : List Recipient → List (Token × String)
  | [] => []
  | recipient :: recipients => (s.callsTo recipient).filterMap Call.given? ++
      (s.serve recipient).scanner.givenTo recipients

/-- Whether some recipient takes all that it is given. -/
def Satisfies (s : Scanner a) (recipients : List Recipient) : Prop :=
  ∃ earlier recipient later, recipients = earlier ++ recipient :: later ∧
    ∃ delivery, ((s.serveAll earlier).serve recipient).report = .ok delivery

/-- A recipient that refuses nothing takes all that it is given, whoever was fed before. -/
theorem satisfies_of_obliging (s : Scanner a) (earlier : List Recipient) (recipient : Recipient)
    (later : List Recipient) (hobliging : recipient.consumer.Obliging) :
    s.Satisfies (earlier ++ recipient :: later) := by
  obtain ⟨tokens, error, final, hyields⟩ := (s.serveAll earlier).exists_yields
  obtain ⟨lexemes, hlexemes⟩ := hyields.exists_lexemes
  obtain ⟨-, hreport, -⟩ := hyields.feedFrom_obliging hlexemes hobliging 0 recipient.memory
  exact ⟨earlier, recipient, later, rfl, _, hreport⟩

/-- Of the tokens ahead of a scanner, recipients are given the first ones, and all of them once one
of the recipients takes what it is given. -/
theorem givenTo_append {s last : Scanner a} {pairs : List (Token × String)}
    (hall : s.Passes pairs last) (hrests : last.Rests) (recipients : List Recipient) :
    ∃ left, s.givenTo recipients ++ left = pairs ∧ (s.Satisfies recipients → left = []) := by
  induction recipients generalizing s last pairs with
  | nil =>
    refine ⟨pairs, rfl, ?_⟩
    rintro ⟨earlier, recipient, later, hsplit, -⟩
    simp at hsplit
  | cons recipient recipients ih =>
    have hcourse := course_feedFrom recipient.consumer 0 s recipient.memory
    obtain ⟨left, final, hgiven, hleft, hfinal, hempty⟩ := hcourse.given_append hall hrests
    obtain ⟨remaining, hremaining, hnone⟩ := ih hleft hfinal
    refine ⟨remaining, ?_, ?_⟩
    · rw [← hgiven, ← hremaining, givenTo, List.append_assoc]
      rfl
    · rintro ⟨earlier, satisfied, later, hsplit, delivery, hreport⟩
      cases earlier with
      | nil =>
        obtain ⟨rfl, rfl⟩ := List.cons.inj hsplit
        rw [hempty delivery hreport] at hremaining
        exact (List.append_eq_nil_iff.mp hremaining).2
      | cons first earlier =>
        obtain ⟨rfl, rfl⟩ := List.cons.inj hsplit
        exact hnone ⟨earlier, satisfied, later, rfl, delivery, hreport⟩

/-- Tokens that are the words of a source are passed with the lexemes of the source. -/
theorem passes_zip {a : Automaton} {source : List UInt8}
    (hspells : (a.scan source).Spells (a.reading source).words) :
    ∃ last, (ofSource a source).Passes ((a.scan source).tokens.zip (a.lexemes source)) last ∧
      last.Rests := by
  obtain ⟨pairs, last, hpasses, hrests, htokens, hlexemes⟩ := (ofSource a source).exists_passes
  have htexts : pairs.map Prod.snd = a.lexemes source := by
    apply (List.map_inj_right fun _ _ => Option.some.inj).mp
    calc (pairs.map Prod.snd).map some
        = pairs.map fun pair => (a.scan source).lexeme? pair.1 := by
          rw [List.map_map]
          exact hlexemes.symm
      _ = (a.scan source).tokens.map (a.scan source).lexeme? := by
          rw [Automaton.scan, ← htokens, List.map_map]
          rfl
      _ = (a.lexemes source).map some := by
          have htold := congrArg (List.map Prod.snd) hspells
          rw [List.map_map, List.map_map] at htold
          rw [Automaton.lexemes, List.map_map]
          exact htold
  have hpairs : (a.scan source).tokens.zip (a.lexemes source) = pairs := by
    rw [← htexts, Automaton.scan, ← htokens]
    exact (List.zip_of_prod rfl rfl).symm
  rw [hpairs]
  exact ⟨last, hpasses, hrests⟩

/-- While numbers last, the tokens of a scan are the words of the source. Recipients that are fed
one after the other are given these tokens with these lexemes, from the first one on, without gaps
and without repetitions, and all of them once a recipient takes all that it is given. Each feeding
takes one of the four courses: nothing is refused, up to the end of the source or up to the failure;
or a token is refused, which is behind the scanner then; or the failure is, which the scanner
repeats. The failure is given once at most, behind the tokens. It never happens that the number of
a token has no lexeme. -/
theorem givenTo_resumes (a : Automaton) (source : List UInt8)
    (hsize : (a.lexemes source).eraseDups.length ≤ UInt32.size) :
    ((a.scan source).Spells (a.reading source).words ∧
      ∃ spans last, a.Tiles source 0 spans last ∧
        a.lexemes source = spans.map (Span.text source)) ∧
    (∀ recipients, (ofSource a source).givenTo recipients <+:
        (a.scan source).tokens.zip (a.lexemes source) ∧
      ((ofSource a source).Satisfies recipients →
        (ofSource a source).givenTo recipients =
          (a.scan source).tokens.zip (a.lexemes source))) ∧
    ∀ (s : Scanner a) (recipient : Recipient),
      Course recipient.consumer 0 s recipient.memory (s.callsTo recipient) (s.serve recipient) ∧
      (∃ (pairs : List (Token × String)) (error : Option LexicalError),
        s.callsTo recipient = pairs.map Call.give ++ error.toList.map .error) ∧
      s.feedChecked recipient.consumer 0 recipient.memory =
        ⟨(s.serve recipient).report.mapError .refused, (s.serve recipient).scanner,
          (s.serve recipient).state⟩ := by
  rw [← a.size_scan] at hsize
  have hspells := Automaton.spells_scan hsize
  refine ⟨⟨hspells, ?_⟩, ?_, ?_⟩
  · obtain ⟨spans, last, htiles, hbytes⟩ := a.reading_tiles source (Nat.zero_le _)
    refine ⟨spans, last, htiles, ?_⟩
    have htexts := congrArg (List.map lexemeText) hbytes
    rw [List.drop_zero, List.map_map, List.map_map] at htexts
    exact htexts.symm
  · intro recipients
    obtain ⟨last, hpasses, hrests⟩ := passes_zip hspells
    obtain ⟨left, hgiven, hnone⟩ := givenTo_append hpasses hrests recipients
    refine ⟨⟨left, hgiven⟩, ?_⟩
    intro hsatisfied
    rw [← hgiven, hnone hsatisfied, List.append_nil]
  · intro s recipient
    have hcourse := course_feedFrom recipient.consumer 0 s recipient.memory
    exact ⟨hcourse, hcourse.exists_calls, feedChecked_eq recipient.consumer 0 s recipient.memory⟩

/-- A recorder with room for one number, one that refuses failures, and one that refuses
nothing. -/
def recorders : List Recipient :=
  [⟨_, _, Consumer.recorder (some 1) false, {}⟩, ⟨_, _, Consumer.recorder none true, {}⟩,
    ⟨_, _, Consumer.recorder none false, {}⟩]

/-- The last recorder takes what is left, and by then each number was given once. -/
theorem givenTo_resumes_numerals :
    (Automaton.numerals.lexemes Automaton.repeatedText).eraseDups.length ≤ UInt32.size ∧
      (ofSource Automaton.numerals Automaton.repeatedText).Satisfies recorders ∧
      ((ofSource Automaton.numerals Automaton.repeatedText).givenTo recorders).map Prod.snd =
        ["11", "1", "11"] := by
  have hlexemes : Automaton.numerals.lexemes Automaton.repeatedText = ["11", "1", "11"] := by
    decide +kernel
  have hsize : (Automaton.numerals.lexemes Automaton.repeatedText).eraseDups.length ≤
      UInt32.size := by
    rw [hlexemes]
    decide
  have hsatisfied : (ofSource Automaton.numerals Automaton.repeatedText).Satisfies recorders :=
    satisfies_of_obliging _ (recorders.take 2) _ [] Consumer.obliging_recorder
  obtain ⟨⟨hspells, -⟩, hgiven, -⟩ :=
    givenTo_resumes Automaton.numerals Automaton.repeatedText hsize
  have hlength : (Automaton.numerals.lexemes Automaton.repeatedText).length ≤
      (Automaton.numerals.scan Automaton.repeatedText).tokens.length := by
    have hsame := congrArg List.length hspells
    rw [List.length_map, List.length_map] at hsame
    rw [Automaton.lexemes, List.length_map]
    exact Nat.le_of_eq hsame.symm
  refine ⟨hsize, hsatisfied, ?_⟩
  rw [(hgiven recorders).2 hsatisfied, List.map_snd_zip hlength, hlexemes]

end Scanner

end TableLexer
