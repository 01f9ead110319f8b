import TableLexer.Acceptance

/-!
# Tables of categories

The table of categories is filled entry by entry. An entry changes the place of its own state only,
and never from one category to another, so when the whole listing has been entered the table holds
the entries of the listing and nothing else. This is where it shows that the lists of accepting
states are disjoint: a state of two categories could not have both in its place.
-/

namespace TableLexer.Acceptance

/-- The category at the place of a state in a table of categories. -/
def categoryIn (table : Array (Option Category)) (state : State) : Option Category :=
  table.getD state.toNat none

/-- An entry that is no overlap either is there already, or is written to an empty place. -/
theorem enter_eq_ok {table next : Array (Option Category)} {entry : State × Category}
    (h : enter table entry = .ok next) :
    (categoryIn table entry.1 = some entry.2 ∧ next = table) ∨
      (categoryIn table entry.1 = none ∧
        next = table.setIfInBounds entry.1.toNat (some entry.2)) := by
  unfold enter at h
  split at h
  · next first hfirst =>
    left
    split at h
    · next heq => exact ⟨hfirst.trans (congrArg some heq), (Except.ok.inj h).symm⟩
    · cases h
  · next hnone => exact Or.inr ⟨hnone, (Except.ok.inj h).symm⟩

/-- An entry is refused if its state has another category already. -/
theorem enter_eq_error {table : Array (Option Category)} {entry : State × Category} {e : TableError}
    (h : enter table entry = .error e) :
    ∃ first, categoryIn table entry.1 = some first ∧ first ≠ entry.2 ∧
      e = .overlap entry.1 first entry.2 := by
  unfold enter at h
  split at h
  · next first hfirst =>
    split at h
    · cases h
    · next hne => exact ⟨first, hfirst, hne, (Except.error.inj h).symm⟩
  · cases h

/-- Entering a state leaves a table of categories its size. -/
theorem size_of_enter {table next : Array (Option Category)} {entry : State × Category}
    (h : enter table entry = .ok next) : next.size = table.size := by
  rcases enter_eq_ok h with ⟨-, rfl⟩ | ⟨-, rfl⟩
  · rfl
  · exact Array.size_setIfInBounds

/-- A category that is set at the place of a state is found for this state only. -/
theorem categoryIn_setIfInBounds {table : Array (Option Category)} {state : State}
    (hlt : state.toNat < table.size) (value : Option Category) (other : State) :
    categoryIn (table.setIfInBounds state.toNat value) other =
      if state = other then value else categoryIn table other := by
  simp only [categoryIn, Array.getD_eq_getD_getElem?, Array.getElem?_setIfInBounds,
    UInt32.toNat_inj]
  by_cases h : state = other
  · subst h
    simp [hlt]
  · simp [h]

/-- After an entry, the table holds what it held before, and the entry. -/
theorem categoryIn_of_enter {table next : Array (Option Category)} {entry : State × Category}
    (h : enter table entry = .ok next) (hlt : entry.1.toNat < table.size) (state : State)
    (category : Category) :
    categoryIn next state = some category ↔
      categoryIn table state = some category ∨ (state, category) = entry := by
  obtain ⟨source, found⟩ := entry
  simp only [Prod.mk.injEq]
  rcases enter_eq_ok h with ⟨hold, rfl⟩ | ⟨hnone, rfl⟩
  · constructor
    · exact Or.inl
    · rintro (hsame | ⟨rfl, rfl⟩)
      · exact hsame
      · exact hold
  · rw [categoryIn_setIfInBounds hlt]
    by_cases hstate : source = state
    · subst hstate
      simp only at hnone
      rw [if_pos rfl, hnone]
      simp [eq_comm]
    · rw [if_neg hstate]
      simp [Ne.symm hstate]

/-- Entries keep the size of the table. -/
theorem size_of_foldlM_enter {entries : List (State × Category)}
    {table final : Array (Option Category)} (h : entries.foldlM enter table = .ok final) :
    final.size = table.size := by
  induction entries generalizing table with
  | nil => rw [Except.ok.inj h]
  | cons entry entries ih =>
    rw [List.foldlM_cons] at h
    cases hnext : enter table entry with
    | error e =>
      rw [hnext] at h
      cases h
    | ok next =>
      rw [hnext] at h
      exact (ih h).trans (size_of_enter hnext)

/-- Entries fail at the first one that is refused. -/
theorem exists_refused_of_foldlM_enter {entries : List (State × Category)}
    {table : Array (Option Category)} {e : TableError} (h : entries.foldlM enter table = .error e) :
    ∃ before entry after reached, entries = before ++ entry :: after ∧
      before.foldlM enter table = .ok reached ∧ enter reached entry = .error e := by
  induction entries generalizing table with
  | nil => cases h
  | cons entry entries ih =>
    rw [List.foldlM_cons] at h
    cases hnext : enter table entry with
    | error refused =>
      rw [hnext] at h
      cases h
      exact ⟨[], entry, entries, table, rfl, rfl, hnext⟩
    | ok next =>
      rw [hnext] at h
      obtain ⟨before, later, after, reached, rfl, hbefore, hrefused⟩ := ih h
      refine ⟨entry :: before, later, after, reached, rfl, ?_, hrefused⟩
      rw [List.foldlM_cons, hnext]
      exact hbefore

/-- All that can go wrong with entries is an overlap. -/
theorem exists_overlap_of_foldlM_enter {entries : List (State × Category)}
    {table : Array (Option Category)} {e : TableError}
    (h : entries.foldlM enter table = .error e) :
    ∃ state first second, e = .overlap state first second := by
  obtain ⟨before, entry, after, reached, rfl, -, hrefused⟩ := exists_refused_of_foldlM_enter h
  obtain ⟨first, -, -, hoverlap⟩ := enter_eq_error hrefused
  exact ⟨_, first, _, hoverlap⟩

/-- After entries with places in the table, it holds what it held before, and the entries. -/
theorem categoryIn_of_foldlM_enter {entries : List (State × Category)}
    {table final : Array (Option Category)} (h : entries.foldlM enter table = .ok final)
    (hlt : ∀ entry ∈ entries, entry.1.toNat < table.size) (state : State) (category : Category) :
    categoryIn final state = some category ↔
      categoryIn table state = some category ∨ (state, category) ∈ entries := by
  induction entries generalizing table with
  | nil =>
    obtain rfl := Except.ok.inj h
    simp
  | cons entry entries ih =>
    rw [List.foldlM_cons] at h
    cases hnext : enter table entry with
    | error e =>
      rw [hnext] at h
      cases h
    | ok next =>
      rw [hnext] at h
      have hsize := size_of_enter hnext
      have hlt' : ∀ later ∈ entries, later.1.toNat < next.size := by
        intro later hmem
        rw [hsize]
        exact hlt later (List.mem_cons_of_mem _ hmem)
      rw [ih h hlt', categoryIn_of_enter hnext (hlt entry List.mem_cons_self), List.mem_cons,
        or_assoc]

/-- Every entry of the listing finds a place for its state, at the time at which it is entered into
a table of categories that began with the given number of places. -/
def EntersWithin (acceptance : Acceptance) (rows : Nat) : Prop :=
  ∀ before entry after table, acceptance.listing = before ++ entry :: after →
    before.foldlM enter (Array.replicate rows none) = .ok table → entry.1.toNat < table.size

/-- Listed states have places in a table that is large enough for all of them. -/
theorem lt_of_mem_listing {acceptance : Acceptance} {rows : Nat} (hrows : acceptance.bound ≤ rows)
    {entry : State × Category} (h : entry ∈ acceptance.listing) : entry.1.toNat < rows := by
  have hbound := lt_bound (mem_listing.mp h)
  omega

/-- In a table that has rows for all accepting states, every entry finds its place. -/
theorem entersWithin_of_bound_le {acceptance : Acceptance} {rows : Nat}
    (hrows : acceptance.bound ≤ rows) : acceptance.EntersWithin rows := by
  intro before entry after table hlisting hbefore
  have hmem : entry ∈ acceptance.listing := by simp [hlisting]
  rw [size_of_foldlM_enter hbefore, Array.size_replicate]
  exact lt_of_mem_listing hrows hmem

/-- A table of categories has a place for every row. -/
theorem size_of_categoryTable {acceptance : Acceptance} {rows : Nat}
    {categories : Array (Option Category)} (h : acceptance.categoryTable rows = .ok categories) :
    categories.size = rows := by
  rw [size_of_foldlM_enter h, Array.size_replicate]

/-- After entries with places in an empty table, it holds the entries and nothing else. -/
theorem categoryIn_of_foldlM_enter_replicate {entries : List (State × Category)} {rows : Nat}
    {final : Array (Option Category)}
    (h : entries.foldlM enter (Array.replicate rows none) = .ok final)
    (hlt : ∀ entry ∈ entries, entry.1.toNat < rows) (state : State) (category : Category) :
    categoryIn final state = some category ↔ (state, category) ∈ entries := by
  have hplaces : ∀ entry ∈ entries,
      entry.1.toNat < (Array.replicate rows (none : Option Category)).size := by
    intro entry hmem
    rw [Array.size_replicate]
    exact hlt entry hmem
  have hempty : categoryIn (Array.replicate rows none) state = none := by
    simp only [categoryIn, Array.getD_eq_getD_getElem?, Array.getElem?_replicate]
    split <;> rfl
  rw [categoryIn_of_foldlM_enter h hplaces, hempty]
  simp

/-- A table of categories holds a category for a state exactly if the state is listed for it. -/
theorem categoryIn_of_categoryTable {acceptance : Acceptance} {rows : Nat}
    {categories : Array (Option Category)} (h : acceptance.categoryTable rows = .ok categories)
    (hrows : acceptance.bound ≤ rows) (state : State) (category : Category) :
    categoryIn categories state = some category ↔ state ∈ acceptance.states category := by
  have hplaces : ∀ entry ∈ acceptance.listing, entry.1.toNat < rows :=
    fun entry hmem => lt_of_mem_listing hrows hmem
  rw [categoryIn_of_foldlM_enter_replicate h hplaces, mem_listing]

end TableLexer.Acceptance
