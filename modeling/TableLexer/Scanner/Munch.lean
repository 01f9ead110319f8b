import TableLexer.Automaton.Basic

/-!
# Longest matches

An automaton is run over some bytes from the start state, as far as its edges lead. Bytes that lead
back to the start state are skipped text: the lexeme begins behind them, and what was matched before
is forgotten. Of the accepting states that are visited after that, the last one ends the lexeme, and
the bytes behind it are given back.
-/

namespace TableLexer

/-- The end of a lexeme and what the lexeme is. -/
structure Match where
  /-- How many bytes lie before the end. -/
  stop : Nat
  /-- The category of the state at the end. -/
  category : Category
  deriving DecidableEq, Repr

/-- How far an automaton has come in looking for a lexeme. -/
structure Attempt where
  /-- The state it is in. -/
  state : State
  /-- How many bytes it has read. -/
  read : Nat
  /-- How many of them are skipped text. -/
  start : Nat
  /-- The longest lexeme so far. -/
  found : Option Match
  deriving DecidableEq, Repr

/-- What comes of looking for a lexeme at the front of some bytes. -/
inductive Munch where
  /-- There is a lexeme, between two places. -/
  | lexeme (start stop : Nat) (category : Category)
  /-- There is skipped text only. -/
  | exhausted
  /-- The automaton got stuck, or the bytes ended, in a token that no accepting state ends. -/
  | stuck (read : Nat)
  deriving DecidableEq, Repr

namespace Attempt

/-- Nothing is read yet. -/
def initial : Attempt := ⟨State.start, 0, 0, none⟩

/-- Reads a byte whose edge leads to a state. -/
def enter (a : Automaton) (attempt : Attempt) (target : State) : Attempt :=
  let read := attempt.read + 1
  if target = State.start then
    ⟨target, read, read, none⟩
  else
    match a.category? target with
    | some category => ⟨target, read, attempt.start, some ⟨read, category⟩⟩
    | none => ⟨target, read, attempt.start, attempt.found⟩

/-- Reads on as long as there are edges, and gives the bytes that are left. -/
def run (a : Automaton) (attempt : Attempt) : List UInt8 → Attempt × List UInt8
  | [] => (attempt, [])
  | b :: rest =>
    match a.next? attempt.state b with
    | none => (attempt, b :: rest)
    | some target => run a (attempt.enter a target) rest

/-- What comes of an attempt that cannot read on, with the bytes that it left. -/
def outcome (ended : Attempt × List UInt8) : Munch :=
  match ended.1.found with
  | some found => .lexeme ended.1.start found.stop found.category
  | none =>
    if ended.2.isEmpty && ended.1.state = State.start then .exhausted else .stuck ended.1.read

/-- A lexeme is not empty and lies within what was read. -/
def InBounds (attempt : Attempt) : Prop :=
  attempt.start ≤ attempt.read ∧
    ∀ found ∈ attempt.found, attempt.start < found.stop ∧ found.stop ≤ attempt.read

/-- Before the first byte there is no match to be out of bounds. -/
theorem initial_inBounds : initial.InBounds := by
  simp [InBounds, initial]

/-- Entering a state counts one byte. -/
theorem read_enter (a : Automaton) (attempt : Attempt) (target : State) :
    (attempt.enter a target).read = attempt.read + 1 := by
  unfold enter
  split
  · rfl
  · split <;> rfl

/-- Entering a state keeps a match within what was read. -/
theorem InBounds.enter {attempt : Attempt} (h : attempt.InBounds) (a : Automaton)
    (target : State) : (attempt.enter a target).InBounds := by
  obtain ⟨hstart, hfound⟩ := h
  unfold Attempt.enter InBounds
  split
  · simp
  · split
    · simp only [Option.mem_def, Option.some.injEq, forall_eq']
      omega
    · exact ⟨Nat.le_succ_of_le hstart, fun found hmem =>
        ⟨(hfound found hmem).1, Nat.le_succ_of_le (hfound found hmem).2⟩⟩

/-- Reading on keeps a match within what was read. -/
theorem InBounds.run {attempt : Attempt} (h : attempt.InBounds) (a : Automaton)
    (input : List UInt8) : (attempt.run a input).1.InBounds := by
  induction input generalizing attempt with
  | nil => exact h
  | cons b rest ih =>
    unfold Attempt.run
    split
    · exact h
    · next target _ => exact ih (h.enter a target)

/-- Every byte is either read or left. -/
theorem read_run (a : Automaton) (attempt : Attempt) (input : List UInt8) :
    (attempt.run a input).1.read + (attempt.run a input).2.length =
      attempt.read + input.length := by
  induction input generalizing attempt with
  | nil => rfl
  | cons b rest ih =>
    unfold run
    split
    · rfl
    · next target _ =>
      rw [ih, read_enter, List.length_cons]
      omega

end Attempt

namespace Automaton

/-- Looks for the longest lexeme at the front of some bytes. -/
def munch (a : Automaton) (input : List UInt8) : Munch :=
  Attempt.outcome (Attempt.initial.run a input)

/-- A lexeme is not empty and lies within the bytes. -/
theorem munch_lexeme {a : Automaton} {input : List UInt8} {start stop : Nat} {category : Category}
    (h : a.munch input = .lexeme start stop category) : start < stop ∧ stop ≤ input.length := by
  have hbounds := Attempt.initial_inBounds.run a input
  have hread := Attempt.read_run a Attempt.initial input
  unfold munch Attempt.outcome at h
  split at h
  · next found hfound =>
    obtain ⟨hlt, hle⟩ := hbounds.2 found hfound
    injection h with hstart hstop _
    simp only [Attempt.initial] at hread hlt hle
    simp only [Attempt.initial] at hstart
    omega
  · split at h <;> cases h

/-- Whoever gets stuck has read no more than there is. -/
theorem munch_stuck {a : Automaton} {input : List UInt8} {read : Nat}
    (h : a.munch input = .stuck read) : read ≤ input.length := by
  have hread := Attempt.read_run a Attempt.initial input
  unfold munch Attempt.outcome at h
  split at h
  · cases h
  · split at h
    · cases h
    · injection h with heq
      simp only [Attempt.initial] at hread heq
      omega

end Automaton

end TableLexer
