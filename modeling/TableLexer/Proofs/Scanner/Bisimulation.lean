import Mathlib.Logic.Equiv.Basic
import TableLexer.Proofs.Scanner.Words

/-!
# Automata that scan alike

A scan sees little of a state: whether it is the start state, which category it accepts, and what
lies behind its edges. Of the start state it does not even see the category, since text that leads
back there is skipped. So two automata whose states can be related in these respects read every
source in the same way. Attempts at a lexeme then run in step; they may also run in step at
different distances from the front of the bytes, which is how skipped text is dealt with.
-/

namespace TableLexer

/-- A relation between the states of two automata that no scan can tell apart. The categories of
the start states are left free. -/
structure Bisimulation (a b : Automaton) (related : State → State → Prop) : Prop where
  /-- The start states are related. -/
  start : related State.start State.start
  /-- No other state is related to a start state. -/
  start_iff : ∀ left right, related left right → (left = State.start ↔ right = State.start)
  /-- Other states accept the same category, or both of them accept none. -/
  category_eq : ∀ left right, related left right → left ≠ State.start →
    a.category? left = b.category? right
  /-- On every byte, both have no edge, or edges to related states. -/
  next : ∀ left right, related left right → ∀ byte,
    Option.Rel related (a.next? left byte) (b.next? right byte)

/-- An automaton is related to itself by equality. -/
theorem Bisimulation.refl (a : Automaton) : Bisimulation a a Eq where
  start := rfl
  start_iff := by
    rintro left _ rfl
    exact Iff.rfl
  category_eq := by
    rintro left _ rfl -
    rfl
  next := by
    rintro left _ rfl byte
    cases a.next? left byte with
    | none => exact .none
    | some target => exact .some rfl

/-- A match, seen from some bytes further back. -/
def Match.shift (count : Nat) (found : Match) : Match := ⟨count + found.stop, found.category⟩

/-- What comes of looking for a lexeme, seen from some bytes further back. -/
def Munch.shift (count : Nat) : Munch → Munch
  | .lexeme start stop category => .lexeme (count + start) (count + stop) category
  | .exhausted => .exhausted
  | .stuck read => .stuck (count + read)

/-- A match that is shifted by nothing is the same. -/
theorem Munch.shift_zero (munch : Munch) : munch.shift 0 = munch := by
  cases munch <;> simp [shift]

namespace Attempt

variable {a b : Automaton} {related : State → State → Prop} {count : Nat} {left right : Attempt}

/-- Two attempts are in step: their states are related, and one has read some bytes more, all of
them skipped text. -/
structure InStep (related : State → State → Prop) (count : Nat) (left right : Attempt) : Prop where
  /-- The states are related. -/
  state : related left.state right.state
  /-- So many bytes more are read. -/
  read_eq : right.read = count + left.read
  /-- The skipped text is longer by as many. -/
  start_eq : right.start = count + left.start
  /-- The longest lexeme so far is the same. -/
  found_eq : right.found = left.found.map (Match.shift count)

/-- Following edges to related states, two attempts stay in step. -/
theorem InStep.enter (hsim : Bisimulation a b related) (h : InStep related count left right)
    {target other : State} (htarget : related target other) :
    InStep related count (left.enter a target) (right.enter b other) := by
  have hread : right.read + 1 = count + (left.read + 1) := by
    rw [h.read_eq, Nat.add_assoc]
  by_cases hstart : target = State.start
  · have hstart' := (hsim.start_iff _ _ htarget).mp hstart
    simp only [Attempt.enter, if_pos hstart, if_pos hstart']
    exact ⟨htarget, hread, hread, rfl⟩
  · have hstart' := mt (hsim.start_iff _ _ htarget).mpr hstart
    have hcategory := hsim.category_eq _ _ htarget hstart
    simp only [Attempt.enter, if_neg hstart, if_neg hstart', hcategory]
    cases b.category? other with
    | some category => exact ⟨htarget, hread, h.start_eq, by simp [Match.shift, hread]⟩
    | none => exact ⟨htarget, hread, h.start_eq, h.found_eq⟩

/-- Over the same bytes, two attempts stay in step, and they stop before the same byte. -/
theorem InStep.run (hsim : Bisimulation a b related) (h : InStep related count left right)
    (input : List UInt8) :
    InStep related count (left.run a input).1 (right.run b input).1 ∧
      (left.run a input).2 = (right.run b input).2 := by
  induction input generalizing left right with
  | nil => exact ⟨h, rfl⟩
  | cons byte rest ih =>
    have hedges := hsim.next _ _ h.state byte
    unfold Attempt.run
    generalize a.next? left.state byte = target at hedges ⊢
    generalize b.next? right.state byte = other at hedges ⊢
    cases hedges with
    | none => exact ⟨h, rfl⟩
    | some htarget => exact ih (h.enter hsim htarget)

/-- What comes of attempts in step is the same, seen from some bytes further back. -/
theorem InStep.outcome_eq (hsim : Bisimulation a b related) (h : InStep related count left right)
    (rest : List UInt8) :
    Attempt.outcome (right, rest) = (Attempt.outcome (left, rest)).shift count := by
  unfold Attempt.outcome
  rw [h.found_eq, h.start_eq, h.read_eq]
  cases left.found with
  | some found => rfl
  | none =>
    simp only [Option.map_none, hsim.start_iff _ _ h.state]
    split <;> rfl

/-- In step from the beginning, two attempts come to the same end. -/
theorem InStep.outcome_run (hsim : Bisimulation a b related) (h : InStep related count left right)
    (input : List UInt8) :
    Attempt.outcome (right.run b input) = (Attempt.outcome (left.run a input)).shift count := by
  obtain ⟨hended, hrest⟩ := h.run hsim input
  have houtcome := hended.outcome_eq hsim (right.run b input).2
  rw [← hrest] at houtcome
  rw [← houtcome, hrest]

end Attempt

namespace Automaton

variable {a b : Automaton}

/-- Longest matches of automata whose states are related are the same. -/
theorem munch_eq_of_bisimulation {related : State → State → Prop}
    (hsim : Bisimulation a b related) (input : List UInt8) : a.munch input = b.munch input := by
  have hinitial : Attempt.InStep related 0 Attempt.initial Attempt.initial :=
    ⟨hsim.start, rfl, rfl, rfl⟩
  have houtcome := hinitial.outcome_run hsim input
  rw [Munch.shift_zero] at houtcome
  exact houtcome.symm

/-- The longest matches are all that a reading depends on. -/
theorem reading_congr (h : ∀ input, a.munch input = b.munch input) (input : List UInt8) :
    a.reading input = b.reading input := by
  induction input using reading.induct a with
  | case1 input hmunch =>
    rw [reading_of_exhausted hmunch, reading_of_exhausted ((h input).symm.trans hmunch)]
  | case2 input read hmunch =>
    rw [reading_of_stuck hmunch, reading_of_stuck ((h input).symm.trans hmunch)]
  | case3 input start stop category hmunch ih =>
    rw [reading_of_lexeme hmunch, reading_of_lexeme ((h input).symm.trans hmunch), ih]

/-- Whether a walk from the start state comes to a state. -/
def Reachable (a : Automaton) (state : State) : Prop :=
  ∃ input, a.walk? State.start input = some state

/-- The walk over no bytes comes to the start state. -/
theorem reachable_start (a : Automaton) : a.Reachable State.start := ⟨[], rfl⟩

/-- An edge of a state that can be reached leads to another one. -/
theorem Reachable.next {state target : State} {byte : UInt8} (h : a.Reachable state)
    (hnext : a.next? state byte = some target) : a.Reachable target := by
  obtain ⟨input, hwalk⟩ := h
  refine ⟨input ++ [byte], ?_⟩
  rw [walk?_append, hwalk]
  simp [walk?, hnext]

/-- States from which no edge leads away are all that can be reached, if they include the start
state. -/
theorem Reachable.mem_of_closed {state : State} {states : List State}
    (hstart : State.start ∈ states)
    (hclosed : ∀ source ∈ states, ∀ edge ∈ a.edges source, edge.2 ∈ states)
    (h : a.Reachable state) : state ∈ states := by
  have hwalk : ∀ input source, source ∈ states → a.walk? source input = some state →
      state ∈ states := by
    intro input
    induction input with
    | nil =>
      intro source hsource hend
      rwa [← Option.some.inj hend]
    | cons byte rest ih =>
      intro source hsource hend
      obtain ⟨target, hnext, hrest⟩ := Option.bind_eq_some_iff.mp hend
      exact ih target (hclosed source hsource _ (mem_edges.mpr hnext)) hrest
  obtain ⟨input, hend⟩ := h
  exact hwalk input State.start hstart hend

/-- A map of the states that can be reached, under which another automaton does the same. It may
take different states to one. -/
structure Folds (a b : Automaton) (image : State → State) : Prop where
  /-- The start state goes to the start state, and no other state does. -/
  start_iff : ∀ state, a.Reachable state → (image state = State.start ↔ state = State.start)
  /-- Other states keep their category. -/
  category_eq : ∀ state, a.Reachable state → state ≠ State.start →
    b.category? (image state) = a.category? state
  /-- Edges go along with the states. -/
  next_eq : ∀ state, a.Reachable state → ∀ byte,
    b.next? (image state) byte = (a.next? state byte).map image

/-- The states that can be reached are related to their images. -/
theorem Folds.bisimulation {image : State → State} (h : Folds a b image) :
    Bisimulation a b fun state other => a.Reachable state ∧ other = image state where
  start := ⟨a.reachable_start, ((h.start_iff _ a.reachable_start).mpr rfl).symm⟩
  start_iff := by
    rintro left _ ⟨hreachable, rfl⟩
    exact (h.start_iff left hreachable).symm
  category_eq := by
    rintro left _ ⟨hreachable, rfl⟩ hne
    exact (h.category_eq left hreachable hne).symm
  next := by
    rintro left _ ⟨hreachable, rfl⟩ byte
    rw [h.next_eq left hreachable byte]
    cases hnext : a.next? left byte with
    | none => exact .none
    | some target => exact .some ⟨hreachable.next hnext, rfl⟩

/-- Automata whose states are related by a bisimulation scan every source alike. -/
theorem scan_eq_of_related {related : State → State → Prop} (hsim : Bisimulation a b related)
    (source : List UInt8) : a.scan source = b.scan source := by
  rw [scan_eq_reading, scan_eq_reading, reading_congr (munch_eq_of_bisimulation hsim)]

/-- Edges that go along with a state are found on the same bytes. -/
theorem next?_eq_map_of_edges {image : State → State} {state other : State}
    (h : b.edges other = (a.edges state).map fun edge => (edge.1, image edge.2)) (byte : UInt8) :
    b.next? other byte = (a.next? state byte).map image := by
  ext target
  rw [← mem_edges, h, List.mem_map, Option.map_eq_some_iff]
  constructor
  · rintro ⟨⟨byte', source⟩, hmem, heq⟩
    obtain ⟨rfl, rfl⟩ := Prod.mk.inj heq
    exact ⟨source, mem_edges.mp hmem, rfl⟩
  · rintro ⟨source, hnext, rfl⟩
    exact ⟨(byte, source), mem_edges.mpr hnext, rfl⟩

/-- Whether a map takes a state of an automaton to one of another automaton with the same category
and the same edges, which lead to some given states. -/
def FoldsAt (a b : Automaton) (image : State → State) (states : List State) (state : State) :
    Prop :=
  (image state = State.start ↔ state = State.start) ∧
    (state ≠ State.start → b.category? (image state) = a.category? state) ∧
    (a.edges state).all (fun edge => edge.2 ∈ states) ∧
    b.edges (image state) = (a.edges state).map fun edge => (edge.1, image edge.2)
  deriving Decidable

/-- It is enough to look at finitely many states from which no edge leads away. The list is run
through, since there are too many states to look at all of them. -/
theorem folds_of_all {image : State → State} (states : List State)
    (hstart : State.start ∈ states) (h : states.all fun state => FoldsAt a b image states state) :
    Folds a b image := by
  have hfolds : ∀ state ∈ states, FoldsAt a b image states state := by
    intro state hstate
    exact of_decide_eq_true (List.all_eq_true.mp h state hstate)
  have hmem : ∀ state, a.Reachable state → state ∈ states := by
    intro state hreachable
    apply hreachable.mem_of_closed hstart
    intro source hsource edge hedge
    have hclosed := (hfolds source hsource).2.2.1
    exact of_decide_eq_true (List.all_eq_true.mp hclosed edge hedge)
  refine ⟨?_, ?_, ?_⟩
  · intro state hreachable
    exact (hfolds state (hmem state hreachable)).1
  · intro state hreachable
    exact (hfolds state (hmem state hreachable)).2.1
  · intro state hreachable
    exact next?_eq_map_of_edges (hfolds state (hmem state hreachable)).2.2.2

/-- A renumbering that leaves the start state in its place takes no other state there. -/
theorem folds_of_renumbering {renumbering : Equiv.Perm State}
    (hstart : renumbering State.start = State.start)
    (hcategory : ∀ state, a.Reachable state → state ≠ State.start →
      b.category? (renumbering state) = a.category? state)
    (hnext : ∀ state, a.Reachable state → ∀ byte,
      b.next? (renumbering state) byte = (a.next? state byte).map renumbering) :
    Folds a b renumbering where
  start_iff := by
    intro state _
    constructor
    · intro himage
      exact renumbering.injective (himage.trans hstart.symm)
    · rintro rfl
      exact hstart
  category_eq := hcategory
  next_eq := hnext

/-- States go to themselves if they keep their category and their edges. -/
theorem folds_id_iff : Folds a b id ↔
    (∀ state, a.Reachable state → state ≠ State.start →
      b.category? state = a.category? state) ∧
    ∀ state, a.Reachable state → ∀ byte, b.next? state byte = a.next? state byte := by
  constructor
  · intro h
    refine ⟨h.category_eq, ?_⟩
    intro state hreachable byte
    have hnext := h.next_eq state hreachable byte
    rwa [Option.map_id] at hnext
  · rintro ⟨hcategory, hnext⟩
    refine ⟨fun _ _ => Iff.rfl, hcategory, ?_⟩
    intro state hreachable byte
    rw [Option.map_id]
    exact hnext state hreachable byte

/-- Automata whose states can be related give the same transcript of every source. In particular,
they do if one comes from the other by merging states, by renumbering them with the start state left
in its place, or by dropping or changing states that cannot be reached. -/
theorem scan_eq_of_bisimulation (a b : Automaton) :
    (∀ related, Bisimulation a b related → ∀ source, a.scan source = b.scan source) ∧
    (∀ image, Folds a b image → ∀ source, a.scan source = b.scan source) ∧
    (∀ renumbering : Equiv.Perm State, renumbering State.start = State.start →
      (∀ state, a.Reachable state → state ≠ State.start →
        b.category? (renumbering state) = a.category? state) →
      (∀ state, a.Reachable state → ∀ byte,
        b.next? (renumbering state) byte = (a.next? state byte).map renumbering) →
      ∀ source, a.scan source = b.scan source) ∧
    ((∀ state, a.Reachable state → state ≠ State.start →
        b.category? state = a.category? state) →
      (∀ state, a.Reachable state → ∀ byte, b.next? state byte = a.next? state byte) →
      ∀ source, a.scan source = b.scan source) := by
  refine ⟨?_, ?_, ?_, ?_⟩
  · intro related hsim source
    exact scan_eq_of_related hsim source
  · intro image hfolds source
    exact scan_eq_of_related hfolds.bisimulation source
  · intro renumbering hstart hcategory hnext source
    exact scan_eq_of_related (folds_of_renumbering hstart hcategory hnext).bisimulation source
  · intro hcategory hnext source
    exact scan_eq_of_related (folds_id_iff.mpr ⟨hcategory, hnext⟩).bisimulation source

/-- The automaton of numbers with two states for whole numbers, which take turns. -/
def turningNumerals : Automaton :=
  (ofRules ([⟨1, 4, .byte 0x31⟩, ⟨4, 1, .byte 0x31⟩, ⟨4, 2, .byte 0x2E⟩] ++ numeralRules)
    { integerLiteral := [1, 4], floatingPointLiteral := [3] }).toOption.get (by decide +kernel)

/-- The same with the two states exchanged. -/
def exchangedNumerals : Automaton :=
  (ofRules [⟨0, 0, .byte 0x20⟩, ⟨0, 4, .byte 0x31⟩, ⟨4, 1, .byte 0x31⟩, ⟨1, 4, .byte 0x31⟩,
      ⟨1, 2, .byte 0x2E⟩, ⟨4, 2, .byte 0x2E⟩, ⟨2, 3, .byte 0x31⟩, ⟨3, 3, .byte 0x31⟩]
    { integerLiteral := [4, 1], floatingPointLiteral := [3] }).toOption.get (by decide +kernel)

/-- The automaton of numbers with a state that cannot be reached, and with a category for the start
state. -/
def paddedNumerals : Automaton :=
  (ofRules (⟨4, 1, .byte 0x2E⟩ :: numeralRules)
    { integerLiteral := [1], floatingPointLiteral := [3, 4], separator := [0] }).toOption.get
    (by decide +kernel)

/-- Takes one of the two states for whole numbers to the other. -/
def mergeWholes (state : State) : State := if state = 4 then 1 else state

/-- Merging the two states for whole numbers gives the automaton of numbers. -/
theorem folds_turningNumerals : Folds turningNumerals numerals mergeWholes :=
  folds_of_all [0, 1, 2, 3, 4] (by decide) (by decide +kernel)

/-- Merging them gives it also after an exchange. -/
theorem folds_exchangedNumerals : Folds exchangedNumerals numerals mergeWholes :=
  folds_of_all [0, 1, 2, 3, 4] (by decide) (by decide +kernel)

/-- Exchanging the two states gives the other one of the two automata. -/
theorem folds_swap : Folds turningNumerals exchangedNumerals (Equiv.swap (1 : State) 4) :=
  folds_of_all [0, 1, 2, 3, 4] (by decide) (by decide +kernel)

/-- Leaving out what cannot be reached gives the automaton of numbers. -/
theorem folds_paddedNumerals : Folds paddedNumerals numerals id :=
  folds_of_all [0, 1, 2, 3] (by decide) (by decide +kernel)

/-- The numbers are the same with the two states for whole numbers merged or exchanged, and without
the state that cannot be reached, whatever the category of the start state. -/
theorem scan_eq_of_bisimulation_numerals :
    (Bisimulation turningNumerals numerals
        (fun state other => turningNumerals.Reachable state ∧ other = mergeWholes state) ∧
      ∀ source, turningNumerals.scan source = numerals.scan source) ∧
    (Folds exchangedNumerals numerals mergeWholes ∧
      ∀ source, exchangedNumerals.scan source = numerals.scan source) ∧
    (Equiv.swap (1 : State) 4 State.start = State.start ∧
      Folds turningNumerals exchangedNumerals (Equiv.swap (1 : State) 4) ∧
      ∀ source, turningNumerals.scan source = exchangedNumerals.scan source) ∧
    Folds paddedNumerals numerals id ∧
      ∀ source, paddedNumerals.scan source = numerals.scan source := by
  have hrelated := (scan_eq_of_bisimulation turningNumerals numerals).1
  have hmerged := (scan_eq_of_bisimulation exchangedNumerals numerals).2.1
  have hexchanged := (scan_eq_of_bisimulation turningNumerals exchangedNumerals).2.2.1
  have hdropped := (scan_eq_of_bisimulation paddedNumerals numerals).2.2.2
  have hstart : Equiv.swap (1 : State) 4 State.start = State.start := by decide
  obtain ⟨hcategory, hnext⟩ := folds_id_iff.mp folds_paddedNumerals
  exact ⟨⟨folds_turningNumerals.bisimulation, hrelated _ folds_turningNumerals.bisimulation⟩,
    ⟨folds_exchangedNumerals, hmerged _ folds_exchangedNumerals⟩,
    ⟨hstart, folds_swap, hexchanged _ hstart folds_swap.category_eq folds_swap.next_eq⟩,
    folds_paddedNumerals, hdropped hcategory hnext⟩

end Automaton

end TableLexer
