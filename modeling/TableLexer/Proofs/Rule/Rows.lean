import TableLexer.Automaton.Draft

/-!
# Rows of a list of rules

A rule acts on the row of its source alone, so the row of a state is what the rules with that source
make of it. Rules also keep a draft closed: no edge leads past the last state that the applied rules
name, and there are no rows past it. So a list of rules never gives a table with a stray edge, and
all that can go wrong with it is an overlap of the accepting states.
-/

namespace TableLexer

/-- The row of a state, after rules that are applied to it one after the other. -/
def Rule.applyAll (rules : List Rule) (row : Row) : Row :=
  rules.foldl (fun row rule => rule.applyTo row) row

/-- Without rules a row stays as it is. -/
theorem Rule.applyAll_nil (row : Row) : applyAll [] row = row := by
  rw [applyAll, List.foldl_nil]

/-- The first rule is applied first. -/
theorem Rule.applyAll_cons (rule : Rule) (rules : List Rule) (row : Row) :
    applyAll (rule :: rules) row = applyAll rules (rule.applyTo row) := by
  -- no `rfl` here: `simp` would leave it to the kernel to tell rows of 256 cells apart
  rw [applyAll, List.foldl_cons, applyAll]

/-- Further rules are applied to the row that the first ones leave. -/
theorem Rule.applyAll_append (first second : List Rule) (row : Row) :
    applyAll (first ++ second) row = applyAll second (applyAll first row) := by
  rw [applyAll, List.foldl_append, applyAll, applyAll]

/-- The edge of a row after a rule: the one that the rule takes back is gone, an edge that is there
stays, and a rule that takes none back gives edges on the bytes of its symbol. -/
theorem Rule.next?_applyTo {rule : Rule} (htarget : rule.target ≠ State.noEdge) (row : Row)
    (b : UInt8) :
    (rule.applyTo row).next? b =
      if rule.retracted? row = some b then none
      else row.next? b <|>
        if rule.retracted? row = none ∧ rule.symbol.contains b then some rule.target else none := by
  unfold applyTo
  cases rule.retracted? row with
  | some c =>
    simp only [Row.next?_erase, Option.some.injEq, reduceCtorEq, false_and, if_false]
    split
    · rfl
    · cases row.next? b <;> rfl
  | none =>
    simp only [Row.next?_addAll, if_neg htarget, reduceCtorEq, if_false, true_and]
    split
    · rfl
    · cases row.next? b <;> rfl

/-- An edge of a row after a rule was there before, or else its place was free and the rule gives
it. -/
theorem Rule.next?_applyTo_cases {rule : Rule} {row : Row} {b : UInt8} {target : State}
    (h : (rule.applyTo row).next? b = some target) :
    row.next? b = some target ∨
      (row.next? b = none ∧ rule.target = target ∧ rule.symbol.contains b) := by
  unfold applyTo at h
  split at h
  · next c _ =>
    rw [Row.next?_erase] at h
    split at h
    · cases h
    · exact Or.inl h
  · rw [Row.next?_addAll] at h
    split at h
    · next hcontains =>
      cases hold : row.next? b with
      | some old =>
        left
        simpa [hold] using h
      | none =>
        right
        simp only [hold, Option.orElse_eq_orElse, Option.orElse_eq_or, Option.none_or] at h
        split at h
        · cases h
        · exact ⟨rfl, Option.some.inj h, hcontains⟩
    · exact Or.inl h

/-- Rules for one byte each give the edge of the first rule for the byte, where there is none. -/
theorem Rule.next?_applyAll_of_bytes {rules : List Rule}
    (hbytes : ∀ rule ∈ rules, ∃ c, rule.symbol = .byte c)
    (htargets : ∀ rule ∈ rules, rule.target ≠ State.noEdge) (row : Row) (b : UInt8) :
    (applyAll rules row).next? b =
      (row.next? b <|> (rules.find? fun rule => rule.symbol = .byte b).map Rule.target) := by
  induction rules generalizing row with
  | nil => cases h : row.next? b <;> simp [applyAll_nil, h]
  | cons rule rules ih =>
    obtain ⟨⟨c, hbyte⟩, hbytes⟩ := List.forall_mem_cons.mp hbytes
    obtain ⟨htarget, htargets⟩ := List.forall_mem_cons.mp htargets
    have hretracted : rule.retracted? row = none := by simp [retracted?, hbyte]
    rw [applyAll_cons, ih hbytes htargets, next?_applyTo htarget, hretracted, List.find?_cons]
    by_cases hb : c = b
    · subst hb
      cases row.next? c <;> simp [hbyte, Symbol.contains]
    · have hb' : b ≠ c := Ne.symm hb
      cases row.next? b <;> simp [hbyte, Symbol.contains, hb, hb']

namespace Draft

/-- Rules with other sources leave the row of a state as it is. -/
theorem row_foldl_apply (rules : List Rule) (draft : Draft) (state : State) :
    (rules.foldl apply draft).table.row state =
      Rule.applyAll (rules.filter fun rule => rule.source == state) (draft.table.row state) := by
  induction rules generalizing draft with
  | nil => rfl
  | cons rule rules ih =>
    rw [List.foldl_cons, ih, row_apply]
    by_cases hsource : rule.source = state
    · rw [if_pos hsource, List.filter_cons_of_pos (by simpa using hsource)]
      rfl
    · rw [if_neg hsource, List.filter_cons_of_neg (by simpa using hsource)]

/-- A draft is closed if neither its rows nor its edges go past the states that it counts. -/
structure Closed (draft : Draft) : Prop where
  /-- It counts no more states than there are. -/
  bound_le : draft.bound ≤ UInt32.size
  /-- Every row is that of a counted state. -/
  size_le : draft.table.size ≤ draft.bound
  /-- Every edge leads to a counted state. -/
  target_lt : ∀ state b target, (draft.table.row state).next? b = some target →
    target.toNat < draft.bound

/-- The draft to which nothing has been applied is closed. -/
theorem closed_empty : empty.Closed where
  bound_le := Nat.zero_le _
  size_le := Nat.le_refl _
  target_lt := by simp [empty, Table.row_eq]

/-- A rule keeps a draft closed: its own states are counted. -/
theorem Closed.apply {draft : Draft} (h : draft.Closed) (rule : Rule) :
    (draft.apply rule).Closed where
  bound_le := by
    have hbound := h.bound_le
    have hsource : rule.source.toNat < UInt32.size := rule.source.toNat_lt_size
    have htarget : rule.target.toNat < UInt32.size := rule.target.toNat_lt_size
    simp only [Draft.apply]
    omega
  size_le := by
    have hsize := h.size_le
    simp only [Draft.apply, Table.size_modifyRow]
    omega
  target_lt := by
    intro state b target hnext
    simp only [Draft.apply]
    rw [row_apply] at hnext
    split at hnext
    · rcases Rule.next?_applyTo_cases hnext with hold | ⟨-, rfl, -⟩
      · have hlt := h.target_lt state b target hold
        omega
      · omega
    · have hlt := h.target_lt state b target hnext
      omega

/-- A list of rules leaves a closed draft closed. -/
theorem Closed.foldl_apply {draft : Draft} (h : draft.Closed) (rules : List Rule) :
    (rules.foldl Draft.apply draft).Closed := by
  induction rules generalizing draft with
  | nil => exact h
  | cons rule rules ih => exact ih (h.apply rule)

/-- The rows of a closed draft have no stray edge, whatever they are padded to. -/
theorem Closed.strayEdge?_eq_none {draft : Draft} (h : draft.Closed) {count : Nat}
    (hcount : count ≤ UInt32.size) :
    ((draft.table.pad draft.bound).pad count).strayEdge? = none := by
  have hsize := h.size_le
  have hbound := h.bound_le
  have hpadded : ((draft.table.pad draft.bound).pad count).size = max draft.bound count := by
    rw [Table.size_pad, Table.size_pad]
    omega
  apply (Table.strayEdge?_eq_none_iff (by omega)).mpr
  intro state b target hnext
  rw [Table.row_pad, Table.row_pad] at hnext
  have hlt := h.target_lt state b target hnext
  omega

end Draft

/-- No table needs more rows than there are states to have one for every accepting state. -/
theorem Acceptance.bound_le (acceptance : Acceptance) : acceptance.bound ≤ UInt32.size := by
  unfold bound
  cases hmax : (acceptance.listing.map fun entry => entry.1.toNat + 1).max? with
  | none => exact Nat.zero_le _
  | some highest =>
    obtain ⟨entry, -, rfl⟩ := List.mem_map.mp (List.max?_mem hmax)
    exact entry.1.toNat_lt_size

/-- A list of rules gives an automaton if the accepting states do not overlap. -/
theorem Automaton.exists_ofRules {rules : List Rule} {acceptance : Acceptance}
    {categories : Array (Option Category)}
    (hcategories : acceptance.categoryTable
      (max (rules.foldl Draft.apply Draft.empty).bound acceptance.bound) = .ok categories) :
    ∃ a, ofRules rules acceptance = .ok a := by
  have hclosed := Draft.closed_empty.foldl_apply rules
  have hsize := hclosed.size_le
  rw [← Nat.max_eq_right hsize, ← Table.size_pad, ← Table.size_pad] at hcategories
  exact exists_ofTable_iff.mpr
    ⟨hclosed.strayEdge?_eq_none acceptance.bound_le, categories, hcategories⟩

/-- The automaton of a list of rules has the accepting states that it was given. -/
theorem Automaton.acceptance_of_ofRules {rules : List Rule} {acceptance : Acceptance}
    {a : Automaton} (h : ofRules rules acceptance = .ok a) : a.acceptance = acceptance := by
  unfold ofRules Draft.build at h
  exact (eq_of_ofTable h).2

/-- The edges of a state are those that the rules with this source make. -/
theorem Automaton.next?_of_ofRules {rules : List Rule} {acceptance : Acceptance} {a : Automaton}
    (h : ofRules rules acceptance = .ok a) (state : State) (b : UInt8) :
    a.next? state b =
      (Rule.applyAll (rules.filter fun rule => rule.source == state) Row.empty).next? b := by
  unfold ofRules Draft.build at h
  rw [next?_of_ofTable h, Table.row_pad, Draft.row_foldl_apply]
  rfl

end TableLexer
