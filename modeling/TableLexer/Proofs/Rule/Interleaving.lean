import TableLexer.Proofs.Automaton.Size

/-!
# Interleaved rules

A rule looks at the row of its source and changes no other, so of a list of rules each state sees
those that leave it, in their order. How the rules of different states are interleaved does not
matter. It does not matter to the number of rows either: rows appear with the states as the rules
are applied, but in the end there are as many as the highest named state needs.
-/

namespace TableLexer

/-- Two lists have the same rules for each source, in the same order. -/
def Rule.SameBySource (rules others : List Rule) : Prop :=
  ∀ state, (rules.filter fun rule => rule.source == state) =
    others.filter fun rule => rule.source == state

/-- A rule stands in one of the lists if it stands in the other, among the rules of its source. -/
theorem Rule.SameBySource.mem_iff {rules others : List Rule} (h : SameBySource rules others)
    {rule : Rule} : rule ∈ rules ↔ rule ∈ others := by
  have hself : ∀ list : List Rule,
      rule ∈ list ↔ rule ∈ list.filter fun other => other.source == rule.source := by
    intro list
    simp
  rw [hself rules, h rule.source, ← hself others]

namespace Draft

/-- The table of a list of rules has rows for the states that the rules name. -/
theorem size_pad_foldl_apply (rules : List Rule) :
    ((rules.foldl apply empty).table.pad (rules.foldl apply empty).bound).size =
      rowsFor (rules.flatMap fun rule => [rule.source, rule.target]) := by
  have hsize := size_foldl_perform (rules.map .apply) empty
  have hempty : max empty.table.size empty.bound = 0 := rfl
  rw [hempty, Nat.zero_max, List.foldl_map, List.flatMap_map] at hsize
  rw [Table.size_pad]
  exact hsize

/-- Interleaved differently, the rules of the same sources give the same table. -/
theorem pad_foldl_apply_of_sameBySource {rules others : List Rule}
    (h : Rule.SameBySource rules others) :
    (rules.foldl apply empty).table.pad (rules.foldl apply empty).bound =
      (others.foldl apply empty).table.pad (others.foldl apply empty).bound := by
  have hnamed : ∀ state, state ∈ (rules.flatMap fun rule => [rule.source, rule.target]) ↔
      state ∈ others.flatMap fun rule => [rule.source, rule.target] := by
    intro state
    simp only [List.mem_flatMap, h.mem_iff]
  apply Table.ext_row
  · rw [size_pad_foldl_apply, size_pad_foldl_apply, rowsFor_congr hnamed]
  · rw [size_pad_foldl_apply]
    exact rowsFor_le_iff.mpr fun state _ => state.toNat_lt_size
  · intro state
    rw [Table.row_pad, Table.row_pad, row_foldl_apply, row_foldl_apply, h state]

end Draft

namespace Automaton

/-- Rules of different sources commute: lists that have the same rules for each source, in the same
order, give the same automaton with any accepting states, or fail with the same error. -/
theorem ofRules_eq_of_sameBySource {rules others : List Rule}
    (h : Rule.SameBySource rules others) (acceptance : Acceptance) :
    ofRules rules acceptance = ofRules others acceptance := by
  rw [ofRules, Draft.build, Draft.pad_foldl_apply_of_sameBySource h]
  rfl

/-- Rules of the first two states in turn. Those of the first one take an edge back and offer it
anew, and the last rule names the highest state. -/
def alternatingRules : List Rule :=
  [⟨0, 1, .exclude 0x61⟩, ⟨1, 0, .byte 0x63⟩, ⟨0, 1, .exclude 0x62⟩, ⟨1, 3, .any⟩,
    ⟨0, 2, .byte 0x62⟩]

/-- The same rules, those of the second state first. -/
def groupedRules : List Rule :=
  [⟨1, 0, .byte 0x63⟩, ⟨1, 3, .any⟩, ⟨0, 1, .exclude 0x61⟩, ⟨0, 1, .exclude 0x62⟩,
    ⟨0, 2, .byte 0x62⟩]

/-- Both lists give one automaton of four states, and one error if a state accepts twice over. -/
theorem ofRules_alternating_eq_grouped :
    alternatingRules ≠ groupedRules ∧ Rule.SameBySource alternatingRules groupedRules ∧
    (∃ a, ofRules alternatingRules { operator := [1] } = .ok a ∧ a.size = 4 ∧
      a.next? 0 0x62 = some 2 ∧ ofRules groupedRules { operator := [1] } = .ok a) ∧
    ofRules groupedRules { identifier := [1], operator := [1] } =
      .error (.overlap 1 .identifier .operator) := by
  have hsame : Rule.SameBySource alternatingRules groupedRules := by
    intro state
    by_cases hfirst : (0 : State) = state
    · subst hfirst
      decide
    · by_cases hsecond : (1 : State) = state
      · subst hsecond
        decide
      · simp [alternatingRules, groupedRules, hfirst, hsecond]
  have hbuilds : (ofRules alternatingRules { operator := [1] }).toOption.map
      (fun a => (a.size, a.next? 0 0x62)) = some (4, some 2) := by
    decide +kernel
  have hfails : ofRules alternatingRules { identifier := [1], operator := [1] } =
      .error (.overlap 1 .identifier .operator) := rfl
  refine ⟨by decide, hsame, ?_, (ofRules_eq_of_sameBySource hsame _).symm.trans hfails⟩
  cases hgiven : ofRules alternatingRules { operator := [1] } with
  | error e =>
    rw [hgiven] at hbuilds
    cases hbuilds
  | ok a =>
    rw [hgiven] at hbuilds
    have hview := Option.some.inj hbuilds
    rw [Prod.mk.injEq] at hview
    exact ⟨a, rfl, hview.1, hview.2, (ofRules_eq_of_sameBySource hsame _).symm.trans hgiven⟩

end Automaton

end TableLexer
