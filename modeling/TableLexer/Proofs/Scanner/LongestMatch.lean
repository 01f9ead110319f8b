import TableLexer.Proofs.Automaton.Walk
import TableLexer.Scanner.Basic

/-!
# Longest matches and walks

An attempt at a lexeme keeps four things in step: the state, the bytes read, the end of the skipped
text and the longest lexeme so far. At every byte they describe the walk over the bytes read. This
is the invariant of `Attempt.run`, and from it `Automaton.munch` is what the places of the whole
walk say, no more and no less. The next token of a scanner is told by the same places.
-/

namespace TableLexer

variable {a : Automaton}

namespace Attempt

/-- An attempt describes the walk over the bytes that it has read. -/
structure Tracks (a : Automaton) (input : List UInt8) (attempt : Attempt) : Prop where
  /-- No more bytes are read than there are. -/
  read_le : attempt.read ≤ input.length
  /-- The walk has come to the state of the attempt. -/
  state_eq : a.stateAt? input attempt.read = some attempt.state
  /-- The skipped text ends at the last visit of the start state. -/
  start_last : a.LastStart input attempt.read attempt.start
  /-- A lexeme that was found ends at the last accepting state behind the skipped text. -/
  found_last : ∀ found, attempt.found = some found →
    a.LastAccept input attempt.start attempt.read found.stop found.category
  /-- If none was found, there was no accepting state behind the skipped text. -/
  found_none : attempt.found = none → a.NoAccept input attempt.start attempt.read

/-- Before the first byte, the walk is in the start state. -/
theorem initial_tracks (a : Automaton) (input : List UInt8) : initial.Tracks a input where
  read_le := Nat.zero_le _
  state_eq := rfl
  start_last := Automaton.lastStart_self rfl
  found_last := by simp [initial]
  found_none := fun _ => a.noAccept_self input 0

/-- The three ways in which an attempt goes on: back to the start state, to an accepting state, or
to a state that does not accept. -/
theorem enter_cases (a : Automaton) (attempt : Attempt) (target : State) :
    (target = State.start ∧
      attempt.enter a target = ⟨target, attempt.read + 1, attempt.read + 1, none⟩) ∨
    (target ≠ State.start ∧ ∃ category, a.category? target = some category ∧
      attempt.enter a target =
        ⟨target, attempt.read + 1, attempt.start, some ⟨attempt.read + 1, category⟩⟩) ∨
    (target ≠ State.start ∧ a.category? target = none ∧
      attempt.enter a target = ⟨target, attempt.read + 1, attempt.start, attempt.found⟩) := by
  unfold enter
  by_cases hstart : target = State.start
  · exact Or.inl ⟨hstart, if_pos hstart⟩
  · right
    simp only [if_neg hstart]
    cases hcategory : a.category? target with
    | some category => exact Or.inl ⟨hstart, category, rfl, rfl⟩
    | none => exact Or.inr ⟨hstart, rfl, rfl⟩

namespace Tracks

variable {input : List UInt8} {attempt : Attempt}

/-- Following the edge on the next byte, an attempt goes on describing the walk. -/
theorem enter (h : attempt.Tracks a input) {b : UInt8} {target : State}
    (hb : input[attempt.read]? = some b) (hedge : a.next? attempt.state b = some target) :
    (attempt.enter a target).Tracks a input := by
  have hlt : attempt.read < input.length := (List.getElem?_eq_some_iff.mp hb).1
  have hnext : a.stateAt? input (attempt.read + 1) = some target := by
    rw [Automaton.stateAt?_succ hb, h.state_eq, Option.bind_some, hedge]
  have hcategoryAt : a.categoryAt? input (attempt.read + 1) = a.category? target := by
    rw [Automaton.categoryAt?, hnext, Option.bind_some]
  have hstart_last : target ≠ State.start →
      a.LastStart input (attempt.read + 1) attempt.start := by
    intro htarget
    apply h.start_last.succ
    simpa [hnext] using htarget
  rcases enter_cases a attempt target with
    ⟨htarget, heq⟩ | ⟨htarget, category, hcategory, heq⟩ | ⟨htarget, hcategory, heq⟩
  · -- the start state: what was read so far is skipped text
    rw [heq]
    subst htarget
    exact ⟨hlt, hnext, Automaton.lastStart_self hnext, by simp, fun _ => a.noAccept_self input _⟩
  · -- an accepting state: it is the last one now
    rw [heq]
    refine ⟨hlt, hnext, hstart_last htarget, ?_, by simp⟩
    rintro found ⟨⟩
    have hstart := h.start_last.le
    have hplace : attempt.start < attempt.read + 1 := by omega
    exact ⟨hplace, Nat.le_refl _, hcategoryAt.trans hcategory, a.noAccept_self input _⟩
  · -- any other state: what was found stays the last
    have hnone : a.categoryAt? input (attempt.read + 1) = none := hcategoryAt.trans hcategory
    rw [heq]
    refine ⟨hlt, hnext, hstart_last htarget, ?_, ?_⟩
    · intro found hfound
      exact (h.found_last found hfound).succ hnone
    · intro hfound
      exact (h.found_none hfound).succ hnone

/-- Reading on over the bytes that are left, an attempt goes on describing the walk, up to the place
where the walk stops. -/
theorem run (h : attempt.Tracks a input) {rest : List UInt8}
    (hrest : rest = input.drop attempt.read) :
    (attempt.run a rest).1.Tracks a input ∧
      (attempt.run a rest).2 = input.drop (attempt.run a rest).1.read ∧
      a.StopsAt input (attempt.run a rest).1.read := by
  induction rest generalizing attempt with
  | nil =>
    refine ⟨h, hrest, h.read_le, attempt.state, h.state_eq, ?_⟩
    intro b hb
    have hle := List.drop_eq_nil_iff.mp hrest.symm
    have hlt := (List.getElem?_eq_some_iff.mp hb).1
    simp only [Attempt.run] at hlt
    omega
  | cons b rest ih =>
    have hb : input[attempt.read]? = some b := by
      rw [← List.head?_drop, ← hrest, List.head?_cons]
    cases hedge : a.next? attempt.state b with
    | none =>
      simp only [Attempt.run, hedge]
      refine ⟨h, hrest, h.read_le, attempt.state, h.state_eq, ?_⟩
      intro c hc
      rw [← Option.some.inj (hb.symm.trans hc)]
      exact hedge
    | some target =>
      simp only [Attempt.run, hedge]
      apply ih (h.enter hb hedge)
      rw [Attempt.read_enter, ← List.drop_drop, ← hrest, List.drop_succ_cons, List.drop_zero]

end Tracks

end Attempt

namespace Automaton

/-- What the longest match at the front of some bytes is, told by the places of the walk over
them. -/
inductive Munches (a : Automaton) (input : List UInt8) : Munch → Prop
  /-- Behind the last visit of the start state, the last accepting state ends the lexeme. -/
  | lexeme {stop start place : Nat} {category : Category} (hstop : a.StopsAt input stop)
      (hstart : a.LastStart input stop start)
      (haccept : a.LastAccept input start stop place category) :
      Munches a input (.lexeme start place category)
  /-- All bytes are skipped text. -/
  | exhausted (hskips : a.Skips input) : Munches a input .exhausted
  /-- There is more than skipped text, but no accepting state. -/
  | stuck {stop start : Nat} (hstop : a.StopsAt input stop) (hstart : a.LastStart input stop start)
      (hno : a.NoAccept input start stop) (hskips : ¬a.Skips input) : Munches a input (.stuck stop)

/-- The match that is found is the longest one. -/
theorem munches_munch (a : Automaton) (input : List UInt8) : a.Munches input (a.munch input) := by
  have hrun := (Attempt.initial_tracks a input).run (List.drop_zero).symm
  rw [munch]
  generalize Attempt.initial.run a input = ended at hrun
  obtain ⟨htracks, hleft, hstop⟩ := hrun
  unfold Attempt.outcome
  cases hfound : ended.1.found with
  | some found => exact .lexeme hstop htracks.start_last (htracks.found_last found hfound)
  | none =>
    have hempty : ended.2.isEmpty = true ↔ ended.1.read = input.length := by
      have hle := htracks.read_le
      rw [hleft, List.isEmpty_iff, List.drop_eq_nil_iff]
      omega
    have hskips : a.Skips input ↔ (ended.2.isEmpty && ended.1.state = State.start) = true := by
      rw [hstop.skips_iff, Bool.and_eq_true, hempty, htracks.state_eq, Option.some.injEq,
        decide_eq_true_iff]
    by_cases hall : a.Skips input
    · simp only [if_pos (hskips.mp hall)]
      exact .exhausted hall
    · simp only [if_neg (mt hskips.mpr hall)]
      exact .stuck hstop htracks.start_last (htracks.found_none hfound) hall

/-- Skipped text that takes up all bytes has no accepting state behind it. -/
theorem Skips.noAccept {input : List UInt8} {stop start : Nat} (h : a.Skips input)
    (hstop : a.StopsAt input stop) (hstart : a.LastStart input stop start) :
    a.NoAccept input start stop := by
  obtain ⟨-, hhere⟩ := hstop.skips_iff.mp h
  intro place hlt hle
  have hle' := hstart.le
  by_contra
  exact hstart.later stop (by omega) (Nat.le_refl _) hhere

/-- The places of the walk determine the longest match. -/
theorem Munches.unique {input : List UInt8} {first second : Munch} (h : a.Munches input first)
    (hother : a.Munches input second) : first = second := by
  cases h with
  | lexeme hstop hstart haccept =>
    cases hother with
    | lexeme hstop' hstart' haccept' =>
      obtain rfl := hstop.unique hstop'
      obtain rfl := hstart.unique hstart'
      obtain ⟨rfl, rfl⟩ := haccept.unique haccept'
      rfl
    | exhausted hskips => exact absurd (hskips.noAccept hstop hstart) haccept.not_noAccept
    | stuck hstop' hstart' hno =>
      obtain rfl := hstop.unique hstop'
      obtain rfl := hstart.unique hstart'
      exact absurd hno haccept.not_noAccept
  | exhausted hskips =>
    cases hother with
    | lexeme hstop hstart haccept =>
      exact absurd (hskips.noAccept hstop hstart) haccept.not_noAccept
    | exhausted => rfl
    | stuck _ _ _ hnot => exact absurd hskips hnot
  | stuck hstop hstart hno hnot =>
    cases hother with
    | lexeme hstop' hstart' haccept =>
      obtain rfl := hstop.unique hstop'
      obtain rfl := hstart.unique hstart'
      exact absurd hno haccept.not_noAccept
    | exhausted hskips => exact absurd hskips hnot
    | stuck hstop' => rw [hstop.unique hstop']

/-- The longest match is the one that the places of the walk tell. -/
theorem munch_eq_iff {input : List UInt8} {found : Munch} :
    a.munch input = found ↔ a.Munches input found := by
  constructor
  · rintro rfl
    exact munches_munch a input
  · exact fun h => (munches_munch a input).unique h

example : numerals.munch numeralText = .lexeme 1 3 .integerLiteral := by decide +kernel

end Automaton

end TableLexer
