import Mathlib.Tactic.ByContra
import TableLexer.Automaton.Draft

/-!
# Walks

An automaton walks over bytes along the edges of its table. A walk from the start state is told by
its places: how far it leads, where it was last in the start state, and where it was last in an
accepting state. Each of these is determined by the bytes alone, and the scanner is described by
them.
-/

namespace TableLexer.Automaton

variable {a : Automaton}

/-- The state in which a walk over some bytes ends, if there are edges on all of them. -/
def walk? (a : Automaton) (state : State) : List UInt8 → Option State
  | [] => some state
  | b :: rest => (a.next? state b).bind fun target => walk? a target rest

/-- Whether the bytes lead from the start state back to the start state. -/
def Skips (a : Automaton) (input : List UInt8) : Prop :=
  a.walk? State.start input = some State.start

/-- The state at a place of the walk over some bytes from the start state. -/
def stateAt? (a : Automaton) (input : List UInt8) (place : Nat) : Option State :=
  a.walk? State.start (input.take place)

/-- The category of the state at a place of the walk. -/
def categoryAt? (a : Automaton) (input : List UInt8) (place : Nat) : Option Category :=
  (a.stateAt? input place).bind a.category?

/-- The walk over some bytes leads to a place and no further: the bytes end there, or the state has
no edge on the next one. -/
structure StopsAt (a : Automaton) (input : List UInt8) (stop : Nat) : Prop where
  /-- The place lies within the bytes. -/
  le : stop ≤ input.length
  /-- The walk comes to the place, and has no edge behind it. -/
  blocked : ∃ state, a.stateAt? input stop = some state ∧
    ∀ b, input[stop]? = some b → a.next? state b = none

/-- The last place, up to a given one, at which the walk is in the start state. -/
structure LastStart (a : Automaton) (input : List UInt8) (stop start : Nat) : Prop where
  /-- The place is not behind the given one. -/
  le : start ≤ stop
  /-- The walk is in the start state there. -/
  here : a.stateAt? input start = some State.start
  /-- It is in other states afterwards. -/
  later : ∀ place, start < place → place ≤ stop → a.stateAt? input place ≠ some State.start

/-- No state that the walk visits behind a place and up to another one accepts. -/
def NoAccept (a : Automaton) (input : List UInt8) (start stop : Nat) : Prop :=
  ∀ place, start < place → place ≤ stop → a.categoryAt? input place = none

/-- The last place, behind a given one and up to another, whose state accepts; and its category. -/
structure LastAccept (a : Automaton) (input : List UInt8) (start stop place : Nat)
    (category : Category) : Prop where
  /-- The place is behind the first of the given ones. -/
  lt : start < place
  /-- It is not behind the second. -/
  le : place ≤ stop
  /-- Its state accepts. -/
  here : a.categoryAt? input place = some category
  /-- No state after it does. -/
  later : a.NoAccept input place stop

/-- A walk over two runs of bytes goes on from where the first one leads. -/
theorem walk?_append (a : Automaton) (state : State) (left right : List UInt8) :
    a.walk? state (left ++ right) =
      (a.walk? state left).bind fun middle => a.walk? middle right := by
  induction left generalizing state with
  | nil => rfl
  | cons b rest ih =>
    cases hnext : a.next? state b with
    | none => simp [walk?, hnext]
    | some target => simpa [walk?, hnext] using ih target

/-- A walk that begins at a state of the table stays within the table. -/
theorem walk?_lt {state final : State} {input : List UInt8} (hstate : state.toNat < a.size)
    (hwalk : a.walk? state input = some final) : final.toNat < a.size := by
  induction input generalizing state with
  | nil =>
    obtain rfl : state = final := Option.some.inj hwalk
    exact hstate
  | cons b rest ih =>
    obtain ⟨target, hnext, hrest⟩ := Option.bind_eq_some_iff.mp hwalk
    exact ih (next?_lt hnext) hrest

/-- Every walk begins in the start state. -/
@[simp] theorem stateAt?_zero (a : Automaton) (input : List UInt8) :
    a.stateAt? input 0 = some State.start := rfl

/-- One byte further, the walk has followed the edge on that byte. -/
theorem stateAt?_succ {input : List UInt8} {place : Nat} {b : UInt8}
    (hb : input[place]? = some b) :
    a.stateAt? input (place + 1) = (a.stateAt? input place).bind fun state => a.next? state b := by
  rw [stateAt?, List.take_add_one, hb, walk?_append]
  congr 1
  funext state
  cases hnext : a.next? state b <;> simp [walk?, hnext]

/-- A walk that comes to a place has come to every place before it. -/
theorem stateAt?_isSome_of_le {input : List UInt8} {place later : Nat} (hle : place ≤ later)
    (hlater : (a.stateAt? input later).isSome) : (a.stateAt? input place).isSome := by
  have hsplit : input.take later = input.take place ++ (input.drop place).take (later - place) := by
    rw [← List.take_add, Nat.add_sub_cancel' hle]
  rw [stateAt?, hsplit, walk?_append] at hlater
  rw [stateAt?]
  cases hplace : a.walk? State.start (input.take place) with
  | none => simp [hplace] at hlater
  | some state => rfl

/-- The state at the end of the bytes is the one that the walk over them leads to. -/
theorem stateAt?_length (a : Automaton) (input : List UInt8) :
    a.stateAt? input input.length = a.walk? State.start input := by
  rw [stateAt?, List.take_length]

namespace StopsAt

variable {input : List UInt8} {stop other : Nat}

/-- The walk comes to no place behind the one where it stops. -/
theorem stateAt?_eq_none (h : a.StopsAt input stop) {place : Nat} (hlt : stop < place)
    (hle : place ≤ input.length) : a.stateAt? input place = none := by
  obtain ⟨state, hstate, hblocked⟩ := h.blocked
  have hstop : stop < input.length := by omega
  have hb : input[stop]? = some input[stop] := List.getElem?_eq_getElem hstop
  have hnext : a.stateAt? input (stop + 1) = none := by
    rw [stateAt?_succ hb, hstate, Option.bind_some, hblocked _ hb]
  by_contra hne
  have hsome := stateAt?_isSome_of_le (show stop + 1 ≤ place by omega)
    (Option.isSome_iff_ne_none.mpr hne)
  simp [hnext] at hsome

/-- A walk stops at one place only. -/
theorem unique (h : a.StopsAt input stop) (hother : a.StopsAt input other) : stop = other := by
  obtain ⟨state, hstate, -⟩ := h.blocked
  obtain ⟨state', hstate', -⟩ := hother.blocked
  rcases Nat.lt_trichotomy stop other with hlt | heq | hlt
  · have hnone := h.stateAt?_eq_none hlt hother.le
    simp [hnone] at hstate'
  · exact heq
  · have hnone := hother.stateAt?_eq_none hlt h.le
    simp [hnone] at hstate

/-- A walk that ends in the start state together with the bytes has skipped all of them. -/
theorem skips_iff (h : a.StopsAt input stop) :
    a.Skips input ↔ stop = input.length ∧ a.stateAt? input stop = some State.start := by
  rw [Skips, ← stateAt?_length]
  constructor
  · intro hskips
    have hend : stop = input.length := by
      have hle := h.le
      by_contra hne
      have hnone := h.stateAt?_eq_none (show stop < input.length by omega) (Nat.le_refl _)
      simp [hskips] at hnone
    exact ⟨hend, hend ▸ hskips⟩
  · rintro ⟨rfl, hstart⟩
    exact hstart

end StopsAt

/-- A visit of the start state is the last one up to its own place. -/
theorem lastStart_self {input : List UInt8} {place : Nat}
    (h : a.stateAt? input place = some State.start) : a.LastStart input place place where
  le := Nat.le_refl _
  here := h
  later := by
    intro other hlt hle
    omega

/-- Behind a place and up to the same place, there is nothing. -/
theorem noAccept_self (a : Automaton) (input : List UInt8) (place : Nat) :
    a.NoAccept input place place := by
  intro other hlt hle
  omega

/-- One place further, the last visit of the start state is the same unless there is a new one. -/
theorem LastStart.succ {input : List UInt8} {stop start : Nat} (h : a.LastStart input stop start)
    (hstate : a.stateAt? input (stop + 1) ≠ some State.start) :
    a.LastStart input (stop + 1) start where
  le := Nat.le_succ_of_le h.le
  here := h.here
  later := by
    intro place hlt hle
    by_cases hplace : place = stop + 1
    · rw [hplace]
      exact hstate
    · exact h.later place hlt (by omega)

/-- No state accepts up to the next place if none did so far and the one there does not. -/
theorem NoAccept.succ {input : List UInt8} {start stop : Nat} (h : a.NoAccept input start stop)
    (hcategory : a.categoryAt? input (stop + 1) = none) : a.NoAccept input start (stop + 1) := by
  intro place hlt hle
  by_cases hplace : place = stop + 1
  · rw [hplace, hcategory]
  · exact h place hlt (by omega)

/-- The last accepting state stays the last one if the one at the next place does not accept. -/
theorem LastAccept.succ {input : List UInt8} {start stop place : Nat} {category : Category}
    (h : a.LastAccept input start stop place category)
    (hcategory : a.categoryAt? input (stop + 1) = none) :
    a.LastAccept input start (stop + 1) place category where
  lt := h.lt
  le := Nat.le_succ_of_le h.le
  here := h.here
  later := h.later.succ hcategory

/-- Skipped text that takes up all bytes is walked to its end. -/
theorem Skips.stopsAt {input : List UInt8} (h : a.Skips input) :
    a.StopsAt input input.length where
  le := Nat.le_refl _
  blocked := ⟨State.start, (stateAt?_length a input).trans h, by simp⟩

/-- It ends in the start state. -/
theorem Skips.lastStart {input : List UInt8} (h : a.Skips input) :
    a.LastStart input input.length input.length :=
  lastStart_self ((stateAt?_length a input).trans h)

/-- The last visit of the start state is at one place only. -/
theorem LastStart.unique {input : List UInt8} {stop start other : Nat}
    (h : a.LastStart input stop start) (hother : a.LastStart input stop other) : start = other := by
  rcases Nat.lt_trichotomy start other with hlt | heq | hlt
  · exact absurd hother.here (h.later other hlt hother.le)
  · exact heq
  · exact absurd h.here (hother.later start hlt h.le)

/-- Where an accepting state was visited, there is a last one. -/
theorem LastAccept.not_noAccept {input : List UInt8} {start stop place : Nat} {category : Category}
    (h : a.LastAccept input start stop place category) : ¬a.NoAccept input start stop := by
  intro hno
  have hnone := hno place h.lt h.le
  simp [h.here] at hnone

/-- The last visit of an accepting state is at one place only. -/
theorem LastAccept.unique {input : List UInt8} {start stop place other : Nat}
    {category otherCategory : Category} (h : a.LastAccept input start stop place category)
    (hother : a.LastAccept input start stop other otherCategory) :
    place = other ∧ category = otherCategory := by
  have heq : place = other := by
    rcases Nat.lt_trichotomy place other with hlt | heq | hlt
    · have hnone := h.later other hlt hother.le
      simp [hother.here] at hnone
    · exact heq
    · have hnone := hother.later place hlt h.le
      simp [h.here] at hnone
  subst heq
  exact ⟨rfl, Option.some.inj (h.here.symm.trans hother.here)⟩

/-- Numbers that are written in ones, with a fraction or without, and with blanks between them. -/
def numeralRules : List Rule :=
  [⟨0, 0, .byte 0x20⟩, ⟨0, 1, .byte 0x31⟩, ⟨1, 1, .byte 0x31⟩, ⟨1, 2, .byte 0x2E⟩,
    ⟨2, 3, .byte 0x31⟩, ⟨3, 3, .byte 0x31⟩]

/-- Whole numbers and fractions. -/
def numeralAcceptance : Acceptance where
  integerLiteral := [1]
  floatingPointLiteral := [3]

/-- The automaton of these numbers. A point that no digit follows is given back. -/
def numerals : Automaton :=
  (ofRules numeralRules numeralAcceptance).toOption.get (by decide +kernel)

/-- The rules of numbers build their automaton. -/
theorem ofRules_numerals : ofRules numeralRules numeralAcceptance = .ok numerals :=
  ofRules_eq_get (by decide +kernel)

/-- A blank, a number, and a point without a fraction behind it. -/
def numeralText : List UInt8 := [0x20, 0x31, 0x31, 0x2E]

end TableLexer.Automaton
