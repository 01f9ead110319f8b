import TableLexer.Proofs.Acceptance.Overlap
import TableLexer.Proofs.Automaton.Size

/-!
# Automata from their edges

The edges of an automaton can be written down as rules for one byte each. However the automaton came
to be, these rules give its edges again: no two of them are for the same state and byte, so their
order does not matter. What they may not give again is its size. Only states that an edge leaves or
reaches, or that accept, are named, and empty rows behind the last of these are lost.
-/

namespace TableLexer

namespace Automaton

/-- The edges of an automaton as rules, state by state. -/
def edgeRules (a : Automaton) : List Rule :=
  (List.range a.size).flatMap fun place =>
    (a.edges (State.ofNat place)).map fun (b, target) => ⟨State.ofNat place, target, .byte b⟩

/-- A state is the last one of an automaton. -/
def IsLast (a : Automaton) (last : State) : Prop := last.toNat + 1 = a.size

/-- A state is named by what is written down of an automaton: an edge leaves it or reaches it, or it
accepts. -/
def Named (a : Automaton) (state : State) : Prop :=
  (∃ b target, a.next state b = .ok target) ∨ (∃ source b, a.next source b = .ok state) ∨
    ∃ category, state ∈ a.acceptance.states category

variable {a : Automaton}

/-- A state that is named has a row. -/
theorem Named.lt {state : State} (h : a.Named state) : state.toNat < a.size := by
  rcases h with ⟨b, target, hedge⟩ | ⟨source, b, hedge⟩ | ⟨category, hstate⟩
  · exact lt_size_of_next? (next_eq_ok_iff.mp hedge)
  · exact next?_lt (next_eq_ok_iff.mp hedge)
  · exact Nat.lt_of_lt_of_le (Acceptance.lt_bound hstate) a.bound_le

/-- The rules of an automaton are those of its edges. -/
theorem mem_edgeRules {rule : Rule} :
    rule ∈ a.edgeRules ↔
      ∃ b, rule.symbol = .byte b ∧ a.next? rule.source b = some rule.target := by
  simp only [edgeRules, List.mem_flatMap, List.mem_range, List.mem_map, Prod.exists, mem_edges]
  constructor
  · rintro ⟨place, -, b, target, hedge, rfl⟩
    exact ⟨b, rfl, hedge⟩
  · rintro ⟨b, hsymbol, hedge⟩
    have hnumber : State.ofNat rule.source.toNat = rule.source := rule.source.ofNat_toNat
    refine ⟨rule.source.toNat, lt_size_of_next? hedge, b, rule.target, ?_, ?_⟩
    · rw [hnumber]
      exact hedge
    · rw [hnumber, ← hsymbol]

/-- The accepting states of an automaton do not overlap, so they go with any rules. -/
theorem exists_ofRules_acceptance (a : Automaton) (rules : List Rule) :
    ∃ c, ofRules rules a.acceptance = .ok c := by
  have hdisjoint : ¬a.acceptance.Overlaps :=
    (Acceptance.exists_categoryTable_iff a.bound_le).mp ⟨a.categories, a.categories_eq⟩
  obtain ⟨categories, hcategories⟩ :=
    (Acceptance.exists_categoryTable_iff (Nat.le_max_right
      (rules.foldl Draft.apply Draft.empty).bound _)).mpr hdisjoint
  exact exists_ofRules hcategories

/-- An automaton of rules has as many states as the rules and the accepting states need. -/
theorem size_of_ofRules {rules : List Rule} {acceptance : Acceptance} {c : Automaton}
    (h : ofRules rules acceptance = .ok c) :
    c.size = Draft.rowsNeeded (rules.map .apply) acceptance := by
  rw [Draft.build_ofRules] at h
  exact Draft.size_of_build h

section Rebuilt

variable {rules : List Rule} (hrules : ∀ rule, rule ∈ rules ↔ rule ∈ a.edgeRules)
  {c : Automaton} (hbuild : ofRules rules a.acceptance = .ok c)

include hrules hbuild

/-- The edges are there again. -/
theorem next?_of_edgeRules (state : State) (b : UInt8) : c.next? state b = a.next? state b := by
  have hedges : ∀ rule ∈ rules.filter (fun rule => rule.source == state),
      ∃ c, rule.symbol = .byte c ∧ a.next? state c = some rule.target := by
    intro rule hmem
    obtain ⟨hmem, hsource⟩ := List.mem_filter.mp hmem
    rw [← eq_of_beq hsource]
    exact mem_edgeRules.mp ((hrules rule).mp hmem)
  have hbytes : ∀ rule ∈ rules.filter (fun rule => rule.source == state),
      ∃ c, rule.symbol = .byte c := by
    intro rule hmem
    obtain ⟨c, hsymbol, -⟩ := hedges rule hmem
    exact ⟨c, hsymbol⟩
  have htargets : ∀ rule ∈ rules.filter (fun rule => rule.source == state),
      rule.target ≠ State.noEdge := by
    intro rule hmem
    obtain ⟨c, -, hedge⟩ := hedges rule hmem
    exact Row.ne_noEdge_of_next? hedge
  rw [next?_of_ofRules hbuild, Rule.next?_applyAll_of_bytes hbytes htargets, Row.next?_empty]
  -- the first rule on the byte wins, but the order does not matter: all rules on it say the same
  cases hfind : (rules.filter fun rule => rule.source == state).find?
      fun rule => rule.symbol = .byte b with
  | some rule =>
    obtain ⟨c, hsymbol, hedge⟩ := hedges rule (List.mem_of_find?_eq_some hfind)
    have hsymbol' : rule.symbol = .byte b := by simpa using List.find?_some hfind
    obtain rfl : c = b := Symbol.byte.inj (hsymbol.symm.trans hsymbol')
    simp [hedge]
  | none =>
    cases hnext : a.next? state b with
    | none => simp
    | some target =>
      have hrule : (⟨state, target, .byte b⟩ : Rule) ∈ rules :=
        (hrules _).mpr (mem_edgeRules.mpr ⟨b, rfl, hnext⟩)
      have hmem : (⟨state, target, .byte b⟩ : Rule) ∈
          rules.filter fun rule => rule.source == state :=
        List.mem_filter.mpr ⟨hrule, beq_self_eq_true state⟩
      simpa using List.find?_eq_none.mp hfind _ hmem

omit hrules in
/-- The categories are the same again. -/
theorem category?_of_edgeRules (state : State) : c.category? state = a.category? state := by
  apply Option.ext
  intro category
  rw [category?_eq_some_iff, category?_eq_some_iff, acceptance_of_ofRules hbuild]

omit hbuild in
/-- A state is named by the rules and the accepting states if the automaton names it. -/
theorem mem_named_iff {state : State} :
    state ∈ (rules.map Draft.Step.apply).flatMap Draft.Step.named ++
        a.acceptance.listing.map Prod.fst ↔ a.Named state := by
  have hrule : ∀ source target b, a.next source b = .ok target →
      (⟨source, target, .byte b⟩ : Rule) ∈ rules := by
    intro source target b hedge
    exact (hrules _).mpr (mem_edgeRules.mpr ⟨b, rfl, next_eq_ok_iff.mp hedge⟩)
  rw [List.mem_append, List.flatMap_map, List.mem_flatMap]
  constructor
  · rintro (⟨rule, hmem, hstate⟩ | hstate)
    · obtain ⟨b, -, hedge⟩ := mem_edgeRules.mp ((hrules rule).mp hmem)
      rcases Draft.Step.mem_named_apply.mp hstate with rfl | rfl
      · exact Or.inl ⟨b, rule.target, next_eq_ok_iff.mpr hedge⟩
      · exact Or.inr (Or.inl ⟨rule.source, b, next_eq_ok_iff.mpr hedge⟩)
    · obtain ⟨⟨state, category⟩, hmem, rfl⟩ := List.mem_map.mp hstate
      exact Or.inr (Or.inr ⟨category, Acceptance.mem_listing.mp hmem⟩)
  · rintro (⟨b, target, hedge⟩ | ⟨source, b, hedge⟩ | ⟨category, hstate⟩)
    · exact Or.inl ⟨_, hrule state target b hedge, Draft.Step.mem_named_apply.mpr (Or.inl rfl)⟩
    · exact Or.inl ⟨_, hrule source state b hedge, Draft.Step.mem_named_apply.mpr (Or.inr rfl)⟩
    · exact Or.inr (List.mem_map.mpr ⟨(state, category), Acceptance.mem_listing.mpr hstate, rfl⟩)

/-- There are as many rows again if there are none, or if the last state is named. -/
theorem size_eq_iff_of_edgeRules :
    c.size = a.size ↔ a.size = 0 ∨ ∃ last, a.IsLast last ∧ a.Named last := by
  have hnamed : ∀ state ∈ (rules.map Draft.Step.apply).flatMap Draft.Step.named ++
      a.acceptance.listing.map Prod.fst, state.toNat < a.size := by
    intro state hmem
    exact ((mem_named_iff hrules).mp hmem).lt
  rw [size_of_ofRules hbuild, Draft.rowsNeeded, Draft.rowsFor_eq_iff hnamed]
  simp only [mem_named_iff hrules, and_comm, IsLast]

/-- With as many rows, the automaton is the same again. -/
theorem eq_iff_size_eq_of_edgeRules : c = a ↔ c.size = a.size := by
  constructor
  · rintro rfl
    rfl
  · intro hsize
    apply eq_of_table_eq _ (acceptance_of_ofRules hbuild)
    apply Table.ext_row hsize
    · rw [← size, size_of_ofRules hbuild]
      exact Draft.rowsNeeded_le _ _
    · intro state
      exact Row.ext_next? (next?_of_edgeRules hrules hbuild state)

end Rebuilt

/-- Every automaton is rebuilt from its edges. The rules for its edges, in any order, build with its
accepting states, and what they build has the same edges and the same categories. It is the same
automaton if that has no states, or if an edge leaves or reaches its last state or this accepts. -/
theorem ofRules_edgeRules (a : Automaton) {rules : List Rule} (horder : rules.Perm a.edgeRules) :
    ∃ c, ofRules rules a.acceptance = .ok c ∧
      (∀ state b, c.next state b = a.next state b) ∧
      (∀ state, c.category state = a.category state) ∧
      (c = a ↔ a.size = 0 ∨ ∃ last, a.IsLast last ∧ a.Named last) := by
  obtain ⟨c, hbuild⟩ := exists_ofRules_acceptance a rules
  have hrules : ∀ rule, rule ∈ rules ↔ rule ∈ a.edgeRules := fun rule => horder.mem_iff
  refine ⟨c, hbuild, ?_, ?_, ?_⟩
  · intro state b
    rw [next, next, next?_of_edgeRules hrules hbuild]
  · intro state
    rw [category, category, category?_of_edgeRules hbuild]
  · rw [eq_iff_size_eq_of_edgeRules hrules hbuild, size_eq_iff_of_edgeRules hrules hbuild]

/-- Rules of three states, the last of which is left without an edge when the only one to it is
taken back. -/
def shrinkingRules : List Rule :=
  [⟨0, 1, .byte 0x61⟩, ⟨1, 2, .byte 0x62⟩, ⟨1, 2, .exclude 0x62⟩]

/-- The automaton of these rules, without accepting states. -/
def shrinking : Automaton := (ofRules shrinkingRules {}).toOption.get (by decide +kernel)

/-- The automaton of numbers is rebuilt from its edges in descending order. The last state of the
other automaton is lost when that is rebuilt, although the edges are the same. -/
theorem ofRules_edgeRules_numerals :
    (numerals.edgeRules.reverse.Perm numerals.edgeRules ∧
      ofRules numerals.edgeRules.reverse numerals.acceptance = .ok numerals) ∧
    shrinking.edgeRules.reverse.Perm shrinking.edgeRules ∧
      ∃ c, ofRules shrinking.edgeRules.reverse shrinking.acceptance = .ok c ∧
        (∀ state b, c.next state b = shrinking.next state b) ∧ c.size = 2 ∧ shrinking.size = 3 ∧
        ¬∃ last, shrinking.IsLast last ∧ shrinking.Named last := by
  have hnumerals := numerals.edgeRules.reverse_perm
  have hshrinking := shrinking.edgeRules.reverse_perm
  constructor
  · obtain ⟨c, hbuild, -, -, hsame⟩ := ofRules_edgeRules numerals hnumerals
    have haccepts : numerals.Named 3 := Or.inr (Or.inr ⟨.floatingPointLiteral, by decide +kernel⟩)
    have hlast : numerals.IsLast 3 := by
      unfold IsLast
      decide +kernel
    rw [hsame.mpr (Or.inr ⟨3, hlast, haccepts⟩)] at hbuild
    exact ⟨hnumerals, hbuild⟩
  · obtain ⟨c, hbuild, hnext, -, hsame⟩ := ofRules_edgeRules shrinking hshrinking
    have hsize : shrinking.size = 3 := by decide +kernel
    have hsize' : (ofRules shrinking.edgeRules.reverse shrinking.acceptance).toOption.map size =
        some 2 := by
      decide +kernel
    rw [hbuild] at hsize'
    have hlost : c.size = 2 := Option.some.inj hsize'
    refine ⟨hshrinking, c, hbuild, hnext, hlost, hsize, fun hlast => ?_⟩
    rw [hsame.mpr (Or.inr hlast), hsize] at hlost
    cases hlost

end Automaton

end TableLexer
