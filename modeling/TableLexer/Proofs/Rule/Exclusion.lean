import TableLexer.Proofs.Rule.Rows

/-!
# Blocks of exclusions

An exclusion does one of two things. If its byte has no edge to its target, it gives edges on all
other bytes; if its byte has one, it takes this edge back. So of several exclusions between the same
two states the first gives edges on the bytes of the others, too, and each of the others takes back
the edge on its own byte. Together they exclude exactly their bytes, in whatever order they stand.

This needs bytes without an edge, and each of them only once. An older edge to another state would
neither be taken back nor be there to tell that edges have been given already, and a byte that is
excluded again has no edge any more, so that the bytes excluded before it would get theirs back.
-/

namespace TableLexer

/-- Exclusions of some bytes between the same two states, one after the other. -/
def Rule.exclusions (source target : State) (xs : List UInt8) : List Rule :=
  xs.map fun x => ⟨source, target, .exclude x⟩

section Rows

variable (source : State) {target : State} {row : Row} {xs : List UInt8}

/-- The exclusion of a byte without an edge gives edges on the other bytes. -/
theorem Rule.next?_applyTo_exclude_of_free (htarget : target ≠ State.noEdge) {x : UInt8}
    (hfree : row.next? x = none) (b : UInt8) :
    (Rule.applyTo ⟨source, target, .exclude x⟩ row).next? b =
      if b = x then none else row.next? b <|> some target := by
  have hretracted : Rule.retracted? ⟨source, target, .exclude x⟩ row = none := by
    simp [retracted?, hfree]
  rw [next?_applyTo htarget, hretracted]
  by_cases hb : b = x
  · subst hb
    simp [Symbol.contains, hfree]
  · simp [Symbol.contains, hb]

/-- The exclusion of a byte with an edge to the same target takes this edge back. -/
theorem Rule.next?_applyTo_exclude_of_edge {x : UInt8} (hedge : row.next? x = some target)
    (b : UInt8) :
    (Rule.applyTo ⟨source, target, .exclude x⟩ row).next? b =
      if b = x then none else row.next? b := by
  have hretracted : Rule.retracted? ⟨source, target, .exclude x⟩ row = some x :=
    retracted?_eq_some_iff.mpr ⟨rfl, hedge⟩
  simp only [applyTo, hretracted, Row.next?_erase, eq_comm]

/-- Exclusions of bytes that all have an edge to the same target take these edges back. -/
theorem Rule.next?_applyAll_exclusions_of_edges (hdistinct : xs.Nodup)
    (hedges : ∀ x ∈ xs, row.next? x = some target) (b : UInt8) :
    (applyAll (exclusions source target xs) row).next? b =
      if b ∈ xs then none else row.next? b := by
  induction xs generalizing row with
  | nil => simp [exclusions, applyAll_nil]
  | cons x xs ih =>
    obtain ⟨hx, hdistinct⟩ := List.nodup_cons.mp hdistinct
    have hfirst := next?_applyTo_exclude_of_edge source
      (hedges x List.mem_cons_self)
    have hedges' : ∀ y ∈ xs,
        (Rule.applyTo ⟨source, target, .exclude x⟩ row).next? y = some target := by
      intro y hy
      have hne : y ≠ x := fun h => hx (h ▸ hy)
      rw [hfirst, if_neg hne, hedges y (List.mem_cons_of_mem _ hy)]
    rw [exclusions, List.map_cons, applyAll_cons, ← exclusions, ih hdistinct hedges', hfirst]
    by_cases hb : b = x <;> simp [hb]

/-- A block of exclusions of bytes without an edge gives edges on all bytes but these. -/
theorem Rule.next?_applyAll_exclusions (htarget : target ≠ State.noEdge) (hsome : xs ≠ [])
    (hdistinct : xs.Nodup) (hfree : ∀ x ∈ xs, row.next? x = none) (b : UInt8) :
    (applyAll (exclusions source target xs) row).next? b =
      if b ∈ xs then none else row.next? b <|> some target := by
  cases xs with
  | nil => exact absurd rfl hsome
  | cons x xs =>
    obtain ⟨hx, hdistinct⟩ := List.nodup_cons.mp hdistinct
    have hfirst := next?_applyTo_exclude_of_free source htarget
      (hfree x List.mem_cons_self)
    -- the first exclusion has given the edges that the others take back
    have hedges : ∀ y ∈ xs,
        (Rule.applyTo ⟨source, target, .exclude x⟩ row).next? y = some target := by
      intro y hy
      have hne : y ≠ x := fun h => hx (h ▸ hy)
      rw [hfirst, if_neg hne, hfree y (List.mem_cons_of_mem _ hy)]
      rfl
    rw [exclusions, List.map_cons, applyAll_cons, ← exclusions,
      next?_applyAll_exclusions_of_edges source hdistinct hedges, hfirst]
    by_cases hb : b = x <;> simp [hb]

/-- The order of the exclusions in a block does not matter to the row. -/
theorem Rule.applyAll_exclusions_perm (htarget : target ≠ State.noEdge) (hsome : xs ≠ [])
    (hdistinct : xs.Nodup) (hfree : ∀ x ∈ xs, row.next? x = none) {order : List UInt8}
    (horder : order.Perm xs) :
    applyAll (exclusions source target order) row = applyAll (exclusions source target xs) row := by
  have hsome' : order ≠ [] := fun h => hsome (List.nil_perm.mp (h ▸ horder))
  have hfree' : ∀ x ∈ order, row.next? x = none := fun x hx => hfree x (horder.mem_iff.mp hx)
  apply Row.ext_next?
  intro b
  rw [next?_applyAll_exclusions source htarget hsome' (horder.nodup_iff.mpr hdistinct) hfree',
    next?_applyAll_exclusions source htarget hsome hdistinct hfree]
  simp only [horder.mem_iff]

end Rows

namespace Draft

/-- Rules that leave one state change the row of this state alone. -/
theorem table_foldl_apply_of_source {rules : List Rule} {source : State}
    (hsource : ∀ rule ∈ rules, rule.source = source) (table : Table) (change : Row → Row)
    (bound : Nat) :
    (rules.foldl apply ⟨table.modifyRow source change, bound⟩).table =
      table.modifyRow source (Rule.applyAll rules ∘ change) := by
  induction rules generalizing change bound with
  | nil => rfl
  | cons rule rules ih =>
    obtain ⟨rfl, hsource⟩ := List.forall_mem_cons.mp hsource
    rw [List.foldl_cons, apply, Table.modifyRow_modifyRow, ih hsource]
    congr 1

/-- Exclusions between states that have rows need no further rows. -/
theorem bound_foldl_apply_exclusions {draft : Draft} {source target : State}
    (h : max source.toNat target.toNat < draft.bound) (xs : List UInt8) :
    ((Rule.exclusions source target xs).foldl apply draft).bound = draft.bound := by
  induction xs generalizing draft with
  | nil => rfl
  | cons x xs ih =>
    have hbound : (draft.apply ⟨source, target, .exclude x⟩).bound = draft.bound :=
      Nat.max_eq_left h
    rw [← hbound] at h
    rw [Rule.exclusions, List.map_cons, List.foldl_cons, ← Rule.exclusions, ih h, hbound]

/-- A block of exclusions changes one row of a draft, and counts its two states. -/
theorem foldl_apply_exclusions {xs : List UInt8} (hsome : xs ≠ []) (draft : Draft)
    (source target : State) :
    (Rule.exclusions source target xs).foldl apply draft =
      ⟨draft.table.modifyRow source (Rule.applyAll (Rule.exclusions source target xs)),
        max draft.bound (max source.toNat target.toNat + 1)⟩ := by
  cases xs with
  | nil => exact absurd rfl hsome
  | cons x xs =>
    let first : Rule := ⟨source, target, .exclude x⟩
    have hsource : ∀ rule ∈ Rule.exclusions source target xs, rule.source = source := by
      intro rule hrule
      obtain ⟨y, -, rfl⟩ := List.mem_map.mp hrule
      rfl
    have hcounted : max source.toNat target.toNat < (draft.apply first).bound :=
      Nat.lt_of_lt_of_le (Nat.lt_succ_self _) (Nat.le_max_right _ _)
    have htable := table_foldl_apply_of_source hsource draft.table first.applyTo
      (draft.apply first).bound
    have hbound := bound_foldl_apply_exclusions hcounted xs
    have hall : Rule.applyAll (Rule.exclusions source target (x :: xs)) =
        Rule.applyAll (Rule.exclusions source target xs) ∘ first.applyTo := by
      funext row
      exact Rule.applyAll_cons first _ row
    rw [hall, ← htable]
    exact congrArg (Draft.mk _) hbound

/-- A block of exclusions between two states, of bytes that have no edge from the first one and are
all different, excludes exactly these bytes: none of them has an edge afterwards, the edges that
were there are still there, and every other byte leads to the second state. No other row changes.
The order of the exclusions does not matter, to the rows or to anything else in the draft. -/
theorem exclusions_exclude (draft : Draft) (source target : State)
    (htarget : target ≠ State.noEdge) {xs : List UInt8} (hsome : xs ≠ []) (hdistinct : xs.Nodup)
    (hfree : ∀ x ∈ xs, (draft.table.row source).next? x = none) {order : List UInt8}
    (horder : order.Perm xs) :
    let after := (Rule.exclusions source target order).foldl apply draft
    (∀ x ∈ xs, (after.table.row source).next? x = none) ∧
    (∀ b old, (draft.table.row source).next? b = some old →
      (after.table.row source).next? b = some old) ∧
    (∀ b ∉ xs, (draft.table.row source).next? b = none →
      (after.table.row source).next? b = some target) ∧
    (∀ other, other ≠ source → after.table.row other = draft.table.row other) ∧
    after = (Rule.exclusions source target xs).foldl apply draft := by
  intro after
  have hsome' : order ≠ [] := fun h => hsome (List.nil_perm.mp (h ▸ horder))
  have hafter : after = (Rule.exclusions source target xs).foldl apply draft := by
    simp only [after]
    have hrow := Rule.applyAll_exclusions_perm source htarget hsome hdistinct hfree horder
    rw [foldl_apply_exclusions hsome', foldl_apply_exclusions hsome, Table.modifyRow_congr hrow]
  have hnext : ∀ b, (after.table.row source).next? b =
      if b ∈ xs then none else (draft.table.row source).next? b <|> some target := by
    intro b
    rw [hafter, foldl_apply_exclusions hsome, Table.row_modifyRow, if_pos rfl,
      Rule.next?_applyAll_exclusions source htarget hsome hdistinct hfree]
  refine ⟨?_, ?_, ?_, ?_, hafter⟩
  · intro x hx
    rw [hnext, if_pos hx]
  · intro b old hold
    have hb : b ∉ xs := by
      intro hmem
      rw [hfree b hmem] at hold
      cases hold
    rw [hnext, if_neg hb, hold]
    rfl
  · intro b hb hnone
    rw [hnext, if_neg hb, hnone]
    rfl
  · intro other hother
    rw [hafter, foldl_apply_exclusions hsome, Table.row_modifyRow, if_neg (Ne.symm hother)]

/-- A draft whose first state leads to the third on a quotation mark. -/
def quotedDraft : Draft := empty.apply ⟨0, 2, .byte 0x22⟩

/-- A line feed and a carriage return are excluded from the inside of a string in either order, and
the quotation mark still ends it. -/
theorem exclusions_exclude_lineEnds :
    (∀ x ∈ [(0x0A : UInt8), 0x0D], (quotedDraft.table.row 0).next? x = none) ∧
    let after := (Rule.exclusions 0 1 [0x0D, 0x0A]).foldl apply quotedDraft
    (after.table.row 0).next? 0x0A = none ∧ (after.table.row 0).next? 0x22 = some 2 ∧
      (after.table.row 0).next? 0x61 = some 1 ∧
      after.table.row 1 = quotedDraft.table.row 1 ∧
      after = (Rule.exclusions 0 1 [0x0A, 0x0D]).foldl apply quotedDraft := by
  have hfree : ∀ x ∈ [(0x0A : UInt8), 0x0D], (quotedDraft.table.row 0).next? x = none := by
    decide +kernel
  have hquote : (quotedDraft.table.row 0).next? 0x22 = some 2 := by decide +kernel
  have hletter : (quotedDraft.table.row 0).next? 0x61 = none := by decide +kernel
  obtain ⟨hexcluded, hkept, hgiven, hrows, horder⟩ :=
    exclusions_exclude quotedDraft 0 1 (by decide) (by decide) (by decide) hfree
      (List.Perm.swap 0x0A 0x0D [])
  exact ⟨hfree, hexcluded 0x0A (by decide), hkept 0x22 2 hquote,
    hgiven 0x61 (by decide) hletter, hrows 1 (by decide), horder⟩

end Draft

end TableLexer
