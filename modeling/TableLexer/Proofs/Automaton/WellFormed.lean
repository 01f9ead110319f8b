import TableLexer.Automaton.Source
import TableLexer.Document.Automaton
import TableLexer.Proofs.Acceptance.CategoryTable
import TableLexer.Proofs.Automaton.Walk

/-!
# Well-formed automata

An automaton is built from a rule text, from rules, from single edges and rules put into a draft in
any order, or from a document. Each of these ends in the checks of `Automaton.ofTable`. Whatever
they let through is well formed: no cell leads out of the table, every state has one place for its
category, and the category is the one whose list has the state.
-/

namespace TableLexer

namespace Draft

/-- One change to a draft. -/
inductive Step where
  /-- A rule is applied. -/
  | apply (rule : Rule)
  /-- One edge is added. -/
  | add (source code : State) (b : UInt8)

/-- Makes a change to a draft. -/
def perform (draft : Draft) : Step → Draft
  | .apply rule => draft.apply rule
  | .add source code b => draft.add source code b

/-- The draft after changes to the empty one. -/
def ofSteps (steps : List Step) : Draft := steps.foldl perform empty

end Draft

namespace Automaton

/-- The ways in which an automaton with given accepting states comes to be. -/
inductive Constructed (a : Automaton) (acceptance : Acceptance) : Prop
  /-- From a rule text. -/
  | ofText (text : String) (h : Automaton.ofText text acceptance = .ok a)
  /-- From a list of rules. -/
  | ofRules (rules : List Rule) (h : Automaton.ofRules rules acceptance = .ok a)
  /-- From changes to a draft. -/
  | ofSteps (steps : List Draft.Step) (h : (Draft.ofSteps steps).build acceptance = .ok a)
  /-- From a document, in which the accepting states are found. -/
  | ofDocument (document : List UInt8) (rows : List Row)
      (hread : (Json.read? document).bind tableOfJson? = some (rows, acceptance))
      (h : Automaton.ofDocument document = .ok a)

/-- What an automaton has to satisfy for its table to be looked into without harm. -/
structure WellFormed (a : Automaton) : Prop where
  /-- A cell without an edge has the code for that, and any other cell the number of a row. -/
  code_lt : ∀ row ∈ a.table, ∀ b, row.code b ≠ State.noEdge → (row.code b).toNat < a.size
  /-- There is a place for the category of each state. -/
  size_categories : a.categories.size = a.size
  /-- Every accepting state has a row. -/
  listed_lt : ∀ category, ∀ state ∈ a.acceptance.states category, state.toNat < a.size
  /-- No state is listed for two categories. -/
  disjoint : ∀ category other, category ≠ other →
    ∀ state ∈ a.acceptance.states category, state ∉ a.acceptance.states other
  /-- A state has the category whose list it is in. -/
  category_iff : ∀ state category,
    a.category state = .ok category ↔ state ∈ a.acceptance.states category

/-- The category of a state is the one whose list it is in. -/
theorem category?_eq_some_iff {a : Automaton} {state : State} {category : Category} :
    a.category? state = some category ↔ state ∈ a.acceptance.states category :=
  Acceptance.categoryIn_of_categoryTable a.categories_eq a.bound_le state category

/-- Every automaton is well formed: its own invariants say so. -/
theorem wellFormed (a : Automaton) : a.WellFormed where
  code_lt := by
    intro row hrow b hcode
    exact a.target_lt row hrow b _ (if_neg hcode)
  size_categories := Acceptance.size_of_categoryTable a.categories_eq
  listed_lt := by
    intro category state hstate
    exact Nat.lt_of_lt_of_le (Acceptance.lt_bound hstate) a.bound_le
  disjoint := by
    intro category other hne state hstate hother
    have hsome := category?_eq_some_iff.mpr hstate
    rw [category?_eq_some_iff.mpr hother] at hsome
    exact hne (Option.some.inj hsome).symm
  category_iff := by
    intro state category
    rw [category_eq_ok_iff, category?_eq_some_iff]

/-- All constructions end in the same checks. -/
theorem Constructed.exists_ofTable {a : Automaton} {acceptance : Acceptance}
    (h : a.Constructed acceptance) : ∃ given, ofTable given acceptance = .ok a := by
  cases h with
  | ofText text h =>
    obtain ⟨rules, -, hbuild⟩ := ofText_eq_ok_iff.mp h
    unfold Automaton.ofRules Draft.build at hbuild
    exact ⟨_, hbuild⟩
  | ofRules rules h =>
    unfold Automaton.ofRules Draft.build at h
    exact ⟨_, h⟩
  | ofSteps steps h =>
    unfold Draft.build at h
    exact ⟨_, h⟩
  | ofDocument document rows hread h =>
    obtain ⟨rows', acceptance', hread', htable⟩ := ofDocument_eq_ok_iff.mp h
    rw [hread, Option.some.injEq, Prod.mk.injEq] at hread'
    obtain ⟨rfl, rfl⟩ := hread'
    exact ⟨_, htable⟩

/-- However an automaton is constructed, it is well formed and has the accepting states that it was
given, and a walk from its start state does not leave a table that has any rows. While its
categories are entered, and also while those of a table are that turns out to be wrong, every state
finds its place. -/
theorem wellFormed_of_constructed :
    (∀ (a : Automaton) (acceptance : Acceptance), a.Constructed acceptance →
      a.acceptance = acceptance ∧ a.WellFormed ∧
        (0 < a.size → ∀ input state, a.walk? State.start input = some state →
          state.toNat < a.size)) ∧
    ∀ (given : Table) (acceptance : Acceptance),
      acceptance.EntersWithin (given.pad acceptance.bound).size := by
  constructor
  · intro a acceptance h
    obtain ⟨given, htable⟩ := h.exists_ofTable
    refine ⟨(eq_of_ofTable htable).2, a.wellFormed, ?_⟩
    intro hsize input state hwalk
    have hstart : State.start.toNat < a.size := hsize
    exact walk?_lt hstart hwalk
  · intro given acceptance
    exact Acceptance.entersWithin_of_bound_le (given.le_size_pad _)

/-- The automaton of numbers is constructed from its rules, so it is well formed. -/
theorem wellFormed_numerals :
    numerals.Constructed numeralAcceptance ∧ 0 < numerals.size ∧
      numerals.acceptance = numeralAcceptance ∧ numerals.WellFormed ∧
      ∀ input state, numerals.walk? State.start input = some state →
        state.toNat < numerals.size := by
  have hconstructed : numerals.Constructed numeralAcceptance := .ofRules _ ofRules_numerals
  have hsize : 0 < numerals.size := by decide +kernel
  obtain ⟨hacceptance, hformed, hwalk⟩ :=
    wellFormed_of_constructed.1 numerals numeralAcceptance hconstructed
  exact ⟨hconstructed, hsize, hacceptance, hformed, hwalk hsize⟩

end Automaton

end TableLexer
