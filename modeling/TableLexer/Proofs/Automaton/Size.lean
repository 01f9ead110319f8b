import TableLexer.Proofs.Automaton.WellFormed
import TableLexer.Proofs.Rule.Rows

/-!
# Sizes of built tables

How many rows a table has when it is built is told by what was put into its draft: a row for every
state that a step names, for every accepting state, and for the states below them. A rule names both
of its states, but a single edge names the state that it leaves and not the one that it leads to. So
a single edge can lead past the last row, and nothing else can: an edge that does was set by the
step that adds it, and a table that is made of rules alone is never too small.
-/

namespace TableLexer

namespace Draft

/-- The states that get a row by a step: both states of a rule, and the source of a single edge. -/
def Step.named : Step → List State
  | .apply rule => [rule.source, rule.target]
  | .add source _ _ => [source]

/-- A rule names its source and its target. -/
theorem Step.mem_named_apply {rule : Rule} {state : State} :
    state ∈ (Step.apply rule).named ↔ state = rule.source ∨ state = rule.target := by
  simp [named]

/-- How many rows it takes that each of some states has one: one more than the highest number of
them, or none if there are no states. -/
def rowsFor (states : List State) : Nat :=
  (states.map fun state => state.toNat + 1).max?.getD 0

/-- How many rows the states need that steps name, together with the accepting states. -/
def rowsNeeded (steps : List Step) (acceptance : Acceptance) : Nat :=
  rowsFor (steps.flatMap Step.named ++ acceptance.listing.map Prod.fst)

/-- A number of rows is enough for states if they are all below it. -/
theorem rowsFor_le_iff {states : List State} {count : Nat} :
    rowsFor states ≤ count ↔ ∀ state ∈ states, state.toNat < count := by
  unfold rowsFor
  cases hmax : (states.map fun state => state.toNat + 1).max? with
  | none =>
    rw [List.max?_eq_none_iff, List.map_eq_nil_iff] at hmax
    simp [hmax]
  | some highest =>
    rw [Option.getD_some, List.max?_le_iff hmax, List.forall_mem_map]
    rfl

/-- Each of the states has one of the rows. -/
theorem lt_rowsFor {states : List State} {state : State} (h : state ∈ states) :
    state.toNat < rowsFor states :=
  rowsFor_le_iff.mp (Nat.le_refl _) state h

/-- If any rows are needed, the last one is that of a state. -/
theorem exists_of_rowsFor_pos {states : List State} (h : 0 < rowsFor states) :
    ∃ state ∈ states, state.toNat + 1 = rowsFor states := by
  unfold rowsFor at h ⊢
  cases hmax : (states.map fun state => state.toNat + 1).max? with
  | none => simp [hmax] at h
  | some highest => exact List.mem_map.mp (List.max?_mem hmax)

/-- States below a number need just so many rows if the last one is among them. -/
theorem rowsFor_eq_iff {states : List State} {count : Nat}
    (h : ∀ state ∈ states, state.toNat < count) :
    rowsFor states = count ↔ count = 0 ∨ ∃ state ∈ states, state.toNat + 1 = count := by
  have hle : rowsFor states ≤ count := rowsFor_le_iff.mpr h
  constructor
  · rintro rfl
    rcases Nat.eq_zero_or_pos (rowsFor states) with hzero | hpos
    · exact Or.inl hzero
    · exact Or.inr (exists_of_rowsFor_pos hpos)
  · rintro (hzero | ⟨state, hstate, hlast⟩)
    · omega
    · have hlt := lt_rowsFor hstate
      omega

/-- The rows that some states need do not depend on how often they are named, or in which order. -/
theorem rowsFor_congr {states others : List State}
    (h : ∀ state, state ∈ states ↔ state ∈ others) : rowsFor states = rowsFor others := by
  apply Nat.le_antisymm
  · exact rowsFor_le_iff.mpr fun state hstate => lt_rowsFor ((h state).mp hstate)
  · exact rowsFor_le_iff.mpr fun state hstate => lt_rowsFor ((h state).mpr hstate)

/-- The states of two lists need as many rows as those of the list that needs more. -/
theorem rowsFor_append (left right : List State) :
    rowsFor (left ++ right) = max (rowsFor left) (rowsFor right) := by
  apply Nat.le_antisymm
  · refine rowsFor_le_iff.mpr fun state hstate => ?_
    rcases List.mem_append.mp hstate with hleft | hright
    · have hlt := lt_rowsFor hleft
      omega
    · have hlt := lt_rowsFor hright
      omega
  · refine Nat.max_le.mpr ⟨rowsFor_le_iff.mpr fun state hstate => ?_,
      rowsFor_le_iff.mpr fun state hstate => ?_⟩
    · exact lt_rowsFor (List.mem_append_left _ hstate)
    · exact lt_rowsFor (List.mem_append_right _ hstate)

/-! ### The number of rows -/

/-- A rule needs rows up to the higher one of its states, a single edge up to its source. -/
theorem rowsFor_named (step : Step) : rowsFor step.named = match step with
    | .apply rule => max rule.source.toNat rule.target.toNat + 1
    | .add source _ _ => source.toNat + 1 := by
  cases step with
  | apply rule => simp [rowsFor, Step.named, Nat.add_max_add_right]
  | add source code b => rfl

/-- A step makes sure that the states that it names have rows, and of no others. -/
theorem size_perform (draft : Draft) (step : Step) :
    max (draft.perform step).table.size (draft.perform step).bound =
      max (max draft.table.size draft.bound) (rowsFor step.named) := by
  rw [rowsFor_named]
  cases step with
  | apply rule =>
    simp only [perform, apply, Table.size_modifyRow]
    omega
  | add source code b =>
    simp only [perform, add, Table.size_modifyRow]
    omega

/-- Steps make sure that the states that they name have rows, and no others besides those there
were. -/
theorem size_foldl_perform (steps : List Step) (draft : Draft) :
    max (steps.foldl perform draft).table.size (steps.foldl perform draft).bound =
      max (max draft.table.size draft.bound) (rowsFor (steps.flatMap Step.named)) := by
  induction steps generalizing draft with
  | nil =>
    have hnone : rowsFor [] = 0 := rfl
    rw [List.foldl_nil, List.flatMap_nil, hnone, Nat.max_zero]
  | cons step steps ih =>
    rw [List.foldl_cons, ih, size_perform, List.flatMap_cons, rowsFor_append, Nat.max_assoc]

/-- The accepting states need as many rows as they are said to need. -/
theorem rowsFor_listing (acceptance : Acceptance) :
    rowsFor (acceptance.listing.map Prod.fst) = acceptance.bound := by
  rw [rowsFor, List.map_map]
  rfl

/-- Padded for its rules and for the accepting states, a table has the rows that are needed. -/
theorem size_pad_ofSteps (steps : List Step) (acceptance : Acceptance) :
    (((ofSteps steps).table.pad (ofSteps steps).bound).pad acceptance.bound).size =
      rowsNeeded steps acceptance := by
  have hempty : max empty.table.size empty.bound = 0 := rfl
  have hsteps := size_foldl_perform steps empty
  rw [hempty, Nat.zero_max] at hsteps
  rw [Table.size_pad, Table.size_pad, rowsNeeded, rowsFor_append, rowsFor_listing,
    ← hsteps]
  rfl

/-- No more rows are needed than there are states. -/
theorem rowsNeeded_le (steps : List Step) (acceptance : Acceptance) :
    rowsNeeded steps acceptance ≤ UInt32.size :=
  rowsFor_le_iff.mpr fun state _ => state.toNat_lt_size

/-! ### Where an edge comes from -/

/-- A step gives a state an edge: it adds the edge, or it applies a rule that has the edge. -/
inductive Step.Gives (state : State) (b : UInt8) (target : State) : Step → Prop
  /-- The rule goes from the state to the target, and the byte is one of its symbol. -/
  | apply {rule : Rule} (hsource : rule.source = state) (htarget : rule.target = target)
      (hsymbol : rule.symbol.contains b) : Gives state b target (.apply rule)
  /-- The edge is added on its own. -/
  | add : Gives state b target (.add state target b)

/-- An edge was there before a step, or else its place was free and the step gives it. -/
theorem next?_perform_cases {draft : Draft} {step : Step} {state target : State} {b : UInt8}
    (h : ((draft.perform step).table.row state).next? b = some target) :
    (draft.table.row state).next? b = some target ∨
      ((draft.table.row state).next? b = none ∧ step.Gives state b target) := by
  cases step with
  | apply rule =>
    rw [perform, row_apply] at h
    split at h
    · next hsource =>
      rcases Rule.next?_applyTo_cases h with hold | ⟨hfree, htarget, hsymbol⟩
      · exact Or.inl hold
      · exact Or.inr ⟨hfree, .apply hsource htarget hsymbol⟩
    · exact Or.inl h
  | add source code c =>
    rw [perform, row_add] at h
    split at h
    · next hsource =>
      rw [Row.next?_add] at h
      split at h
      · next hbyte =>
        cases hold : (draft.table.row state).next? b with
        | some old =>
          left
          simpa [hold] using h
        | none =>
          right
          simp only [hold, Option.orElse_eq_orElse, Option.orElse_eq_or, Option.none_or] at h
          split at h
          · cases h
          · obtain rfl := Option.some.inj h
            subst hsource hbyte
            exact ⟨rfl, .add⟩
      · exact Or.inl h
    · exact Or.inl h

/-- The edge of a state on a byte after so many of the first steps. -/
def edgeAfter? (steps : List Step) (count : Nat) (state : State) (b : UInt8) : Option State :=
  ((ofSteps (steps.take count)).table.row state).next? b

/-- The step at a place sets an edge for good: there was none before it, and after it the edge is
never taken back. -/
structure SetAt (steps : List Step) (place : Nat) (state : State) (b : UInt8) (target : State) :
    Prop where
  /-- There is a step at the place. -/
  lt : place < steps.length
  /-- Right before the step there is no edge. -/
  free : edgeAfter? steps place state b = none
  /-- From the step on there is the edge. -/
  stays : ∀ count, place < count → count ≤ steps.length →
    edgeAfter? steps count state b = some target

variable {steps : List Step} {state target : State} {b : UInt8}

/-- After all steps, the edges are those of the draft. -/
theorem edgeAfter?_length (steps : List Step) (state : State) (b : UInt8) :
    edgeAfter? steps steps.length state b = ((ofSteps steps).table.row state).next? b := by
  rw [edgeAfter?, List.take_length]

/-- An edge behind a step was there before it, or the step gives it where there was none. -/
theorem edgeAfter?_succ_cases {place : Nat} {step : Step} (hstep : steps[place]? = some step)
    (h : edgeAfter? steps (place + 1) state b = some target) :
    edgeAfter? steps place state b = some target ∨
      (edgeAfter? steps place state b = none ∧ step.Gives state b target) := by
  have hsucc : ofSteps (steps.take (place + 1)) = (ofSteps (steps.take place)).perform step := by
    rw [ofSteps, List.take_add_one, hstep, Option.toList_some, List.foldl_append]
    rfl
  rw [edgeAfter?, hsucc] at h
  exact next?_perform_cases h

/-- Every edge has been set at some place, and has been there ever since. -/
theorem exists_setAt_of_le {count : Nat} (hcount : count ≤ steps.length)
    (h : edgeAfter? steps count state b = some target) :
    ∃ place < count, edgeAfter? steps place state b = none ∧
      ∀ later, place < later → later ≤ count → edgeAfter? steps later state b = some target := by
  induction count with
  | zero => simp [edgeAfter?, ofSteps, empty, Table.row_eq] at h
  | succ count ih =>
    have hstep : steps[count]? = some steps[count] := List.getElem?_eq_getElem hcount
    rcases edgeAfter?_succ_cases hstep h with hold | ⟨hfree, -⟩
    · obtain ⟨place, hlt, hfree, hstays⟩ := ih (by omega) hold
      refine ⟨place, by omega, hfree, fun later hafter hle => ?_⟩
      by_cases hlast : later = count + 1
      · rw [hlast]
        exact h
      · exact hstays later hafter (by omega)
    · refine ⟨count, by omega, hfree, fun later hafter hle => ?_⟩
      obtain rfl : later = count + 1 := by omega
      exact h

/-- Every edge that is left was set for good at some place. -/
theorem exists_setAt (h : edgeAfter? steps steps.length state b = some target) :
    ∃ place, SetAt steps place state b target := by
  obtain ⟨place, hlt, hfree, hstays⟩ := exists_setAt_of_le (Nat.le_refl _) h
  exact ⟨place, hlt, hfree, hstays⟩

/-- The step that sets an edge gives it. -/
theorem SetAt.exists_gives {place : Nat} (h : SetAt steps place state b target) :
    ∃ step, steps[place]? = some step ∧ step.Gives state b target := by
  have hlt := h.lt
  have hstep : steps[place]? = some steps[place] := List.getElem?_eq_getElem hlt
  have hedge := h.stays (place + 1) (by omega) hlt
  rcases edgeAfter?_succ_cases hstep hedge with hold | ⟨-, hgives⟩
  · rw [h.free] at hold
    cases hold
  · exact ⟨_, hstep, hgives⟩

/-- An edge past the rows that are needed is set by the step that adds it: a rule would have named
its target. -/
theorem SetAt.step_eq_add {place : Nat} (h : SetAt steps place state b target)
    {acceptance : Acceptance} (hpast : rowsNeeded steps acceptance ≤ target.toNat) :
    steps[place]? = some (.add state target b) := by
  obtain ⟨step, hstep, hgives⟩ := h.exists_gives
  cases hgives with
  | add => exact hstep
  | @apply rule hsource htarget hsymbol =>
    have hnamed : target ∈ steps.flatMap Step.named := by
      refine List.mem_flatMap.mpr ⟨_, List.mem_of_getElem? hstep, ?_⟩
      rw [← htarget]
      exact List.mem_cons_of_mem _ List.mem_cons_self
    have hlt : target.toNat < rowsNeeded steps acceptance :=
      lt_rowsFor (List.mem_append_left _ hnamed)
    omega

end Draft

/-! ### What can go wrong -/

namespace Automaton

/-- An edge out of range is told of exactly the tables that have a stray edge. -/
theorem ofTable_eq_outOfRange_iff {given : Table} {acceptance : Acceptance} :
    (∃ source target last, ofTable given acceptance = .error (.outOfRange source target last)) ↔
      (given.pad acceptance.bound).strayEdge? ≠ none := by
  simp only [ofTable_eq_error_iff]
  constructor
  · rintro ⟨source, target, last, hstray | ⟨-, hcategories⟩⟩
    · simp [hstray]
    · obtain ⟨state, first, second, hoverlap⟩ :=
        Acceptance.exists_overlap_of_foldlM_enter hcategories
      cases hoverlap
  · intro hstray
    obtain ⟨e, he⟩ := Option.ne_none_iff_exists'.mp hstray
    obtain ⟨source, target, last, rfl⟩ := Table.exists_outOfRange_of_strayEdge? he
    exact ⟨source, target, last, Or.inl he⟩

/-- A fault of the table of a rule text is one of the table of its rules. -/
theorem exists_rules_of_ofText_eq_error {text : String} {acceptance : Acceptance} {e : TableError}
    (h : ofText text acceptance = .error (.table e)) :
    ∃ rules, (RuleFile.read text).rules = .ok rules ∧ ofRules rules acceptance = .error e := by
  unfold ofText at h
  cases hread : (RuleFile.read text).rules with
  | error fault =>
    rw [hread] at h
    cases h
  | ok rules =>
    rw [hread] at h
    cases hbuild : ofRules rules acceptance with
    | error found =>
      simp only [Except.mapError, bind, Except.bind, hbuild] at h
      cases h
      exact ⟨rules, rfl, hbuild⟩
    | ok a =>
      simp only [Except.mapError, bind, Except.bind, hbuild] at h
      cases h

end Automaton

namespace Draft

/-- An edge out of range is told of exactly the drafts that have an edge past the rows needed. -/
theorem build_eq_outOfRange_iff {steps : List Step} {acceptance : Acceptance} :
    (∃ source target last,
        (ofSteps steps).build acceptance = .error (.outOfRange source target last)) ↔
      ∃ state b target, edgeAfter? steps steps.length state b = some target ∧
        rowsNeeded steps acceptance ≤ target.toNat := by
  have hsize := size_pad_ofSteps steps acceptance
  have hle := rowsNeeded_le steps acceptance
  rw [build, Automaton.ofTable_eq_outOfRange_iff, ne_eq,
    Table.strayEdge?_eq_none_iff (by rw [hsize]; exact hle), hsize]
  simp only [Table.row_pad, edgeAfter?_length, not_forall, Nat.not_lt, exists_prop]

/-- A draft that builds gives an automaton with the rows that are needed. -/
theorem size_of_build {steps : List Step} {acceptance : Acceptance} {a : Automaton}
    (h : (ofSteps steps).build acceptance = .ok a) : a.size = rowsNeeded steps acceptance := by
  rw [build] at h
  rw [Automaton.size, (Automaton.eq_of_ofTable h).1, size_pad_ofSteps]

/-- A list of rules is a list of steps that apply them. -/
theorem build_ofRules (rules : List Rule) (acceptance : Acceptance) :
    Automaton.ofRules rules acceptance = (ofSteps (rules.map .apply)).build acceptance := by
  rw [Automaton.ofRules, ofSteps, List.foldl_map]
  rfl

/-- Whatever is put into a draft, and whichever states accept, the draft fails to build with an edge
out of range if and only if an edge that is left leads past the rows that are needed. Such an edge
was set by a step, and none but the one that adds it on its own can have set it. If the draft
builds, its automaton has exactly the rows that are needed. So neither a list of rules nor a rule
text ever fails with an edge out of range. -/
theorem build_ofSteps_outOfRange_iff (steps : List Step) (acceptance : Acceptance) :
    ((∃ source target last,
        (ofSteps steps).build acceptance = .error (.outOfRange source target last)) ↔
      ∃ state b target, edgeAfter? steps steps.length state b = some target ∧
        rowsNeeded steps acceptance ≤ target.toNat) ∧
    (∀ state b target, edgeAfter? steps steps.length state b = some target →
      rowsNeeded steps acceptance ≤ target.toNat →
      (∃ place, SetAt steps place state b target) ∧
        ∀ place, SetAt steps place state b target →
          steps[place]? = some (.add state target b)) ∧
    (∀ a, (ofSteps steps).build acceptance = .ok a → a.size = rowsNeeded steps acceptance) ∧
    (∀ rules source target last,
      Automaton.ofRules rules acceptance ≠ .error (.outOfRange source target last)) ∧
    ∀ text source target last,
      Automaton.ofText text acceptance ≠ .error (.table (.outOfRange source target last)) := by
  have hrules : ∀ rules source target last,
      Automaton.ofRules rules acceptance ≠ .error (.outOfRange source target last) := by
    intro rules source target last h
    rw [build_ofRules] at h
    obtain ⟨state, b, stray, hedge, hpast⟩ := build_eq_outOfRange_iff.mp ⟨source, target, last, h⟩
    obtain ⟨place, hset⟩ := exists_setAt hedge
    have hadd := hset.step_eq_add hpast
    rw [List.getElem?_map, Option.map_eq_some_iff] at hadd
    obtain ⟨rule, -, hrule⟩ := hadd
    cases hrule
  refine ⟨build_eq_outOfRange_iff, ?_, fun _ => size_of_build, hrules, ?_⟩
  · intro state b target hedge hpast
    exact ⟨exists_setAt hedge, fun place hset => hset.step_eq_add hpast⟩
  · intro text source target last h
    obtain ⟨rules, -, hbuild⟩ := Automaton.exists_rules_of_ofText_eq_error h
    exact hrules rules source target last hbuild

/-- A rule between the first two states, and an edge from the second one to the eighth. -/
def looseSteps : List Step := [.apply ⟨0, 1, .byte 0x61⟩, .add 1 7 0x62]

/-- The added edge leads past the two rows that these steps need, so they do not build. When the
eighth state accepts, there are rows enough. -/
theorem build_ofSteps_loose :
    (∃ source target last,
      (ofSteps looseSteps).build {} = .error (.outOfRange source target last)) ∧
    edgeAfter? looseSteps 2 1 0x62 = some 7 ∧ rowsNeeded looseSteps {} = 2 ∧
    (∃ place, SetAt looseSteps place 1 0x62 7 ∧ looseSteps[place]? = some (.add 1 7 0x62)) ∧
    ∃ a, (ofSteps looseSteps).build { identifier := [7] } = .ok a ∧ a.size = 8 := by
  have hedge : edgeAfter? looseSteps 2 1 0x62 = some 7 := by decide +kernel
  have hneeded : rowsNeeded looseSteps {} = 2 := by decide
  have hpast : rowsNeeded looseSteps {} ≤ (7 : State).toNat := by decide
  have hbuilds : ((ofSteps looseSteps).build { identifier := [7] }).toOption.isSome := by
    decide +kernel
  obtain ⟨hrange, hset, -⟩ := build_ofSteps_outOfRange_iff looseSteps {}
  obtain ⟨-, -, hsize, -⟩ := build_ofSteps_outOfRange_iff looseSteps { identifier := [7] }
  obtain ⟨⟨place, hplace⟩, hadd⟩ := hset 1 0x62 7 hedge hpast
  refine ⟨hrange.mpr ⟨1, 0x62, 7, hedge, hpast⟩, hedge, hneeded, ⟨place, hplace, hadd place hplace⟩,
    ?_⟩
  cases hbuild : (ofSteps looseSteps).build { identifier := [7] } with
  | error e =>
    rw [hbuild] at hbuilds
    cases hbuilds
  | ok a => exact ⟨a, rfl, hsize a hbuild⟩

end Draft

end TableLexer
