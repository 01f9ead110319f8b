import TableLexer.Proofs.Consumer.Resumption

/-!
# Every loop over a scan ends

The loops of a scan go on until something stops them: the loop over the bytes ahead until there is
no edge or no byte, and the loops over the tokens until there is no further one. Nothing in a loop
counts its rounds. They are taken round by round here, with a budget that they may run out of, and
they never do: a round over the bytes takes a byte, and a round over the tokens moves the scanner
behind a lexeme that is not empty, also when bytes behind the lexeme are given back.
-/

namespace TableLexer

/-- What a round of a loop comes to. -/
inductive Round (α β : Type) where
  /-- The loop goes on from another state. -/
  | again (next : α)
  /-- The loop ends. -/
  | ends (final : β)

section Loop

variable {α β : Type} {round : α → Round α β}

/-- Takes a loop round by round: what it ends with, unless it takes more rounds than the budget
has. -/
def endsWithin? (round : α → Round α β) : Nat → α → Option β
  | 0, _ => none
  | budget + 1, state =>
    match round state with
    | .again next => endsWithin? round budget next
    | .ends final => some final

/-- A round from a state gets on: it makes the state smaller and keeps what is to come of it, or it
ends the loop with that. -/
inductive GetsOn (size : α → Nat) (result : α → β) (state : α) : Round α β → Prop
  /-- The loop goes on. -/
  | again {next : α} (hsmaller : size next < size state) (hsame : result next = result state) :
    GetsOn size result state (.again next)
  /-- The loop ends. -/
  | ends {final : β} (hresult : final = result state) : GetsOn size result state (.ends final)

/-- A loop whose rounds get on ends, after no more rounds that go on than the size of its state. -/
theorem endsWithin?_eq_some (size : α → Nat) (result : α → β)
    (hround : ∀ state, GetsOn size result state (round state)) {budget : Nat} (state : α)
    (hbudget : size state < budget) :
    endsWithin? round budget state = some (result state) := by
  induction budget generalizing state with
  | zero => omega
  | succ budget ih =>
    have hstate := hround state
    rw [endsWithin?]
    cases hnext : round state with
    | again next =>
      rw [hnext] at hstate
      cases hstate with
      | again hsmaller hsame =>
        rw [← hsame]
        exact ih next (by omega)
    | ends final =>
      rw [hnext] at hstate
      cases hstate with
      | ends hresult => rw [hresult]

end Loop

/-! ### The bytes ahead -/

/-- A round of the loop over the bytes ahead, which takes a byte if there is an edge for it. -/
def Attempt.round (a : Automaton) :
    Attempt × List UInt8 → Round (Attempt × List UInt8) (Attempt × List UInt8)
  | (attempt, []) => .ends (attempt, [])
  | (attempt, b :: rest) =>
    match a.next? attempt.state b with
    | none => .ends (attempt, b :: rest)
    | some target => .again (attempt.enter a target, rest)

/-- The loop over the bytes ahead takes no more of them than there are. -/
theorem Attempt.endsWithin?_round (a : Automaton) (attempt : Attempt) {input : List UInt8}
    {budget : Nat} (hbudget : input.length < budget) :
    endsWithin? (Attempt.round a) budget (attempt, input) = some (attempt.run a input) := by
  refine endsWithin?_eq_some (fun state => state.2.length) (fun state => state.1.run a state.2) ?_
    (attempt, input) hbudget
  rintro ⟨attempt, input⟩
  cases input with
  | nil => exact .ends rfl
  | cons b rest =>
    cases hedge : a.next? attempt.state b with
    | none =>
      simp only [Attempt.round, hedge]
      exact .ends (by simp only [Attempt.run, hedge])
    | some target =>
      simp only [Attempt.round, hedge]
      exact .again (Nat.lt_succ_self _) (by simp only [Attempt.run, hedge])

namespace Scanner

variable {a : Automaton} {σ ε : Type}

/-! ### The tokens ahead -/

/-- A round of the loop that makes a transcript, behind some tokens. -/
def transcriptRound : Scanner a × List Token → Round (Scanner a × List Token) Transcript
  | (s, tokens) =>
    match s.nextToken with
    | (.ok (some token), later) => .again (later, tokens ++ [token])
    | (.ok none, later) => .ends ⟨tokens, later.lexicon, none⟩
    | (.error e, later) => .ends ⟨tokens, later.lexicon, some e⟩

/-- A round of the loop that collects the items, behind some tokens. -/
def tokenizeRound : Scanner a × List Token →
    Round (Scanner a × List Token) (Except LexicalError (List Token) × Scanner a)
  | (s, tokens) =>
    match s.next with
    | (some (.ok token), later) => .again (later, tokens ++ [token])
    | (some (.error e), later) => .ends (.error e, later)
    | (none, later) => .ends (.ok tokens, later)

/-- A round of the loop that feeds a consumer, which has been given some tokens already. -/
def feedRound (consumer : Consumer σ ε) :
    Scanner a × Nat × σ → Round (Scanner a × Nat × σ) (Feeding a σ ε)
  | (s, given, state) =>
    match s.nextToken with
    | (.ok (some token), later) =>
      match consumer.accept token ((later.lexeme? token.id).getD "") state with
      | .ok _ next => .again (later, given + 1, next)
      | .error refusal next => .ends ⟨.error refusal, later, next⟩
    | (.ok none, later) => .ends ⟨.ok ⟨given, none⟩, later, state⟩
    | (.error e, later) =>
      match consumer.error e state with
      | .ok _ next => .ends ⟨.ok ⟨given, some e⟩, later, next⟩
      | .error refusal next => .ends ⟨.error refusal, later, next⟩

/-- The loop that makes a transcript asks for no more tokens than there are bytes ahead. -/
theorem endsWithin?_transcriptRound (s : Scanner a) (tokens : List Token) {budget : Nat}
    (hbudget : s.rest.length < budget) :
    endsWithin? transcriptRound budget (s, tokens) =
      some { s.transcript with tokens := tokens ++ s.transcript.tokens } := by
  refine endsWithin?_eq_some (fun state => state.1.rest.length)
    (fun state => { state.1.transcript with tokens := state.2 ++ state.1.transcript.tokens }) ?_
    (s, tokens) hbudget
  rintro ⟨s, tokens⟩
  cases hnext : s.nextToken with
  | mk answer later =>
    cases answer with
    | error e =>
      simp only [transcriptRound, hnext]
      exact .ends (by rw [transcript_of_error hnext, List.append_nil])
    | ok found =>
      cases found with
      | none =>
        simp only [transcriptRound, hnext]
        exact .ends (by rw [transcript_of_end hnext, List.append_nil])
      | some token =>
        simp only [transcriptRound, hnext]
        refine .again (length_rest_lt hnext) ?_
        rw [transcript_of_token hnext, List.append_assoc, List.singleton_append]

/-- The loop that collects the items asks for no more tokens than there are bytes ahead. -/
theorem endsWithin?_tokenizeRound (s : Scanner a) (tokens : List Token) {budget : Nat}
    (hbudget : s.rest.length < budget) :
    endsWithin? tokenizeRound budget (s, tokens) =
      some (s.tokenize.1.map (tokens ++ ·), s.tokenize.2) := by
  refine endsWithin?_eq_some (fun state => state.1.rest.length)
    (fun state => (state.1.tokenize.1.map (state.2 ++ ·), state.1.tokenize.2)) ?_ (s, tokens)
    hbudget
  rintro ⟨s, tokens⟩
  cases hnext : s.next with
  | mk item later =>
    cases item with
    | none =>
      simp only [tokenizeRound, hnext]
      exact .ends (by rw [tokenize_of_none hnext, Except.map, List.append_nil])
    | some answer =>
      cases answer with
      | error e =>
        simp only [tokenizeRound, hnext]
        exact .ends (by rw [tokenize_of_error hnext]; rfl)
      | ok token =>
        simp only [tokenizeRound, hnext]
        refine .again (length_rest_lt_of_next hnext) ?_
        rw [tokenize_of_token hnext]
        cases later.tokenize.1 <;> simp [Except.map]

/-- The loop that feeds a consumer asks for no more tokens than there are bytes ahead, whatever the
consumer takes or refuses. -/
theorem endsWithin?_feedRound (consumer : Consumer σ ε) (s : Scanner a) (given : Nat) (state : σ)
    {budget : Nat} (hbudget : s.rest.length < budget) :
    endsWithin? (feedRound consumer) budget (s, given, state) =
      some (s.feedFrom consumer given state) := by
  -- the bytes ahead are the measure: a round that goes on has taken a token of one byte or more
  refine endsWithin?_eq_some (fun state => state.1.rest.length)
    (fun state => state.1.feedFrom consumer state.2.1 state.2.2) ?_ (s, given, state) hbudget
  rintro ⟨s, given, state⟩
  cases hnext : s.nextToken with
  | mk answer later =>
    cases answer with
    | error e =>
      have hfeed := feedFrom_of_error hnext consumer given state
      simp only [feedRound, hnext]
      cases hanswer : consumer.error e state with
      | ok _ next | error refusal next =>
        rw [hanswer] at hfeed
        exact .ends hfeed.symm
    | ok found =>
      cases found with
      | none =>
        simp only [feedRound, hnext]
        exact .ends (feedFrom_of_end hnext consumer given state).symm
      | some token =>
        obtain ⟨lexeme, hlexeme⟩ := Option.isSome_iff_exists.mp (lexeme?_isSome hnext)
        have hfeed := feedFrom_of_token hnext hlexeme consumer given state
        simp only [feedRound, hnext, hlexeme, Option.getD_some]
        cases hanswer : consumer.accept token lexeme state with
        | ok _ next =>
          rw [hanswer] at hfeed
          exact .again (length_rest_lt hnext) hfeed.symm
        | error refusal next =>
          rw [hanswer] at hfeed
          exact .ends hfeed.symm

/-! ### How many tokens there are -/

/-- A transcript has no more tokens than there are bytes ahead. -/
theorem length_tokens_transcript_le (s : Scanner a) :
    s.transcript.tokens.length ≤ s.rest.length := by
  induction s using transcript.induct with
  | case1 s later hnext =>
    rw [transcript_of_end hnext]
    exact Nat.zero_le _
  | case2 s e later hnext =>
    rw [transcript_of_error hnext]
    exact Nat.zero_le _
  | case3 s token later hnext ih =>
    have hrest := length_rest_lt hnext
    rw [transcript_of_token hnext, List.length_cons]
    omega

/-- There are no more items left than bytes ahead. -/
theorem length_tokenize_le {s : Scanner a} {tokens : List Token} (h : s.tokenize.1 = .ok tokens) :
    tokens.length ≤ s.rest.length := by
  cases hfailure : s.failure with
  | some e =>
    rw [(repeats_of_failure hfailure).tokenize_eq] at h
    cases h
    exact Nat.zero_le _
  | none =>
    obtain ⟨found, error, final, hyields⟩ := s.exists_yields
    have hle := s.length_tokens_transcript_le
    rw [hyields.tokenize_eq hfailure] at h
    rw [hyields.transcript_eq] at hle
    cases error with
    | some e => cases h
    | none =>
      cases h
      exact hle

/-- A consumer is given no more tokens than there are bytes ahead, refused ones among them. -/
theorem length_given_le (consumer : Consumer σ ε) (s : Scanner a) (state : σ) :
    ((s.calls consumer state).filterMap Call.given?).length ≤ s.rest.length := by
  induction s using transcript.induct generalizing state with
  | case1 s later hnext =>
    rw [calls_of_end hnext]
    exact Nat.zero_le _
  | case2 s e later hnext =>
    rw [calls_of_error hnext]
    exact Nat.zero_le _
  | case3 s token later hnext ih =>
    have hrest := length_rest_lt hnext
    obtain ⟨lexeme, hlexeme⟩ := Option.isSome_iff_exists.mp (lexeme?_isSome hnext)
    have hgiven : Call.given? (.accept token lexeme) = some (token, lexeme) := rfl
    rw [calls_of_token hnext hlexeme, List.filterMap_cons_some hgiven, List.length_cons]
    cases consumer.accept token lexeme state with
    | ok _ next =>
      have hlater := ih next
      simp only
      omega
    | error refusal next => exact Nat.lt_of_le_of_lt (Nat.zero_le _) hrest

/-! ### No lexeme is empty -/

/-- The text of a lexeme ahead is not empty. -/
theorem textAhead_ne_empty (s : Scanner a) {start place : Nat} (hstart : start < place)
    (hplace : place ≤ s.rest.length) : s.textAhead start place ≠ "" := by
  have hlength := s.length_rest
  intro hempty
  have hbytes := congrArg (fun text => text.toList.length) hempty
  simp only [textAhead, lexemeText, String.toList_ofList, List.length_map,
    List.extract_eq_take_drop, List.length_take, List.length_drop, String.toList_empty,
    List.length_nil] at hbytes
  omega

/-- A scanner whose lexemes are not empty finds no empty one. -/
theorem not_mem_texts_of_nextToken {s later : Scanner a}
    {answer : Except LexicalError (Option Token)} (h : s.nextToken = (answer, later))
    (hs : "" ∉ s.lexicon.texts) : "" ∉ later.lexicon.texts := by
  cases moves_of_nextToken h with
  | token _ hmunch hmoves =>
    obtain ⟨hstart, hplace⟩ := Automaton.munch_lexeme (Automaton.munch_eq_iff.mpr hmunch)
    rw [hmoves.lexicon_eq, Lexicon.texts_intern]
    split
    · exact hs
    · rw [Array.mem_push, not_or]
      exact ⟨hs, (s.textAhead_ne_empty hstart hplace).symm⟩
  | ended _ _ hmoves | stuck _ _ hmoves => rwa [hmoves.lexicon_eq]
  | failed => exact hs

/-- The empty text never gets a number by requests for tokens. -/
theorem Reaches.not_mem_texts {s later : Scanner a} (h : s.Reaches later)
    (hs : "" ∉ s.lexicon.texts) : "" ∉ later.lexicon.texts := by
  induction h with
  | refl => exact hs
  | step _ ih => exact ih (not_mem_texts_of_nextToken rfl hs)

/-- A token moves a scanner ahead. If no lexeme of the scanner is empty, then nor is that of the
token. -/
theorem moves_ahead_of_token {s later : Scanner a} {token : Token}
    (h : s.nextToken = (.ok (some token), later)) (hs : "" ∉ s.lexicon.texts) :
    s.position < later.position ∧ later.position ≤ s.source.length ∧
      ∃ lexeme, later.lexeme? token.id = some lexeme ∧ lexeme ≠ "" := by
  have hrest := length_rest_lt h
  have hlength := s.length_rest
  have hlength' := later.length_rest
  have hle := later.position_le
  rw [(precedes_of_nextToken h).source_eq] at hlength' hle
  obtain ⟨lexeme, hlexeme⟩ := Option.isSome_iff_exists.mp (lexeme?_isSome h)
  refine ⟨by omega, hle, lexeme, hlexeme, ?_⟩
  rintro rfl
  exact not_mem_texts_of_nextToken h hs (Array.mem_of_getElem? hlexeme)

/-- Whatever has been asked of a scanner before, every loop over what is left of its source ends,
with a budget of one round more than there are bytes ahead. The loop over the bytes looks for a
lexeme; when there is one, the token moves the scanner ahead by a byte at least, and its lexeme is
not empty. So the loops over the tokens end as well, and they find no more tokens than there are
bytes ahead: the one that makes a transcript, the one that collects the items, and the one that
feeds a consumer, whatever that takes or refuses. -/
theorem loops_end (a : Automaton) (source : List UInt8) (operations : List Operation)
    (s : Scanner a) (hs : (ofSource a source).performAll operations = s) :
    (∃ ended, endsWithin? (Attempt.round a) (source.length - s.position + 1)
        (Attempt.initial, s.rest) = some ended ∧ a.munch s.rest = Attempt.outcome ended) ∧
    (∀ token later, s.nextToken = (.ok (some token), later) →
      s.position < later.position ∧ later.position ≤ source.length ∧
        ∃ lexeme, later.lexeme? token.id = some lexeme ∧ lexeme ≠ "") ∧
    (endsWithin? transcriptRound (source.length - s.position + 1) (s, []) = some s.transcript ∧
      s.transcript.tokens.length ≤ source.length - s.position) ∧
    (endsWithin? tokenizeRound (source.length - s.position + 1) (s, []) = some s.tokenize ∧
      ∀ tokens, s.tokenize.1 = .ok tokens → tokens.length ≤ source.length - s.position) ∧
    ∀ {σ ε : Type} (consumer : Consumer σ ε) (state : σ),
      endsWithin? (feedRound consumer) (source.length - s.position + 1) (s, 0, state) =
          some (s.feed consumer state) ∧
        ((s.calls consumer state).filterMap Call.given?).length ≤ source.length - s.position := by
  have hreaches : (ofSource a source).Reaches s := hs ▸ reaches_performAll _ operations
  have hsource : s.source = source := hreaches.precedes.source_eq
  have hnonempty : "" ∉ s.lexicon.texts := hreaches.not_mem_texts (Array.not_mem_empty _)
  have hlength : s.rest.length = source.length - s.position := hsource ▸ s.length_rest
  have hbudget : s.rest.length < source.length - s.position + 1 := by omega
  rw [← hlength] at hbudget ⊢
  refine ⟨⟨_, Attempt.endsWithin?_round a _ hbudget, rfl⟩, fun token later hnext => ?_, ⟨?_, ?_⟩,
    ⟨?_, fun tokens => length_tokenize_le⟩, fun consumer state => ⟨?_, ?_⟩⟩
  · exact hsource ▸ moves_ahead_of_token hnext hnonempty
  · exact endsWithin?_transcriptRound s [] hbudget
  · exact s.length_tokens_transcript_le
  · rw [endsWithin?_tokenizeRound s [] hbudget]
    cases htokenize : s.tokenize with
    | mk answer later => cases answer <;> rfl
  · exact endsWithin?_feedRound consumer s 0 state hbudget
  · exact length_given_le consumer s state

/-- A blank, a number and a point: the number is one token, behind which the scanner stands, and the
loops end within five rounds, also the one that feeds a consumer without room for a token. -/
theorem loops_end_numerals :
    ∃ s, (ofSource Automaton.numerals Automaton.numeralText).performAll [] = s ∧
      (∃ token later, s.nextToken = (.ok (some token), later) ∧ 0 < later.position ∧
        ∃ lexeme, later.lexeme? token.id = some lexeme ∧ lexeme ≠ "") ∧
      endsWithin? transcriptRound 5 (s, []) = some s.transcript ∧
      s.transcript.tokens.length ≤ 4 ∧
      endsWithin? (feedRound (Consumer.recorder (some 0) false)) 5 (s, 0, {}) =
        some (s.feed (Consumer.recorder (some 0) false) {}) := by
  obtain ⟨-, htoken, ⟨htranscript, hcount⟩, -, hfeed⟩ :=
    loops_end Automaton.numerals Automaton.numeralText [] _ rfl
  obtain ⟨final, hyields⟩ := yields_numerals
  cases hyields with
  | token hnext _ =>
    obtain ⟨hahead, -, hlexeme⟩ := htoken _ _ hnext
    exact ⟨_, rfl, ⟨_, _, hnext, hahead, hlexeme⟩, htranscript, hcount, (hfeed _ _).1⟩

end Scanner

end TableLexer
