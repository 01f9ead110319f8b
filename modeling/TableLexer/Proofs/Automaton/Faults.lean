import TableLexer.Proofs.Acceptance.Overlap
import TableLexer.Proofs.Automaton.Size

/-!
# Faults of a table

A table with its accepting states is refused for one of two reasons, and the fault that is told is
the first of its kind. Edges come first: if any leads past the last row, it is the one with the
least row and, in this row, the least byte. Overlaps are looked for when all edges stay within the
table. What is told is determined by the table and by the lists, so it can be said without going
through them: an edge or an overlap that nothing of its kind precedes.
-/

namespace TableLexer

namespace Table

/-- An edge leads from a row of a table, on a byte, past its last row. -/
structure Stray (table : Table) (place : Nat) (b : UInt8) (target : State) : Prop where
  /-- The row has the edge. -/
  edge : ∃ row, table[place]? = some row ∧ row.next? b = some target
  /-- The table has no row for the target. -/
  past : table.size ≤ target.toNat

/-- A stray edge with the least row and, in this row, with the least byte. -/
structure FirstStray (table : Table) (place : Nat) (b : UInt8) (target : State) : Prop where
  /-- The edge leads past the last row. -/
  stray : table.Stray place b target
  /-- No stray edge comes before it. -/
  first : ∀ other c found, table.Stray other c found → place < other ∨ place = other ∧ b ≤ c

variable {table : Table} {place : Nat} {b : UInt8} {target : State}

/-- A table with a stray edge has fewer rows than there are states. -/
theorem Stray.place_lt (h : table.Stray place b target) :
    place < table.size ∧ table.size < UInt32.size := by
  obtain ⟨row, hrow, -⟩ := h.edge
  have hpast := h.past
  have htarget : target.toNat < UInt32.size := target.toNat_lt_size
  exact ⟨(Array.getElem?_eq_some_iff.mp hrow).1, by omega⟩

/-- Only one edge comes before all other stray edges. -/
theorem FirstStray.unique {other : Nat} {c : UInt8} {found : State}
    (h : table.FirstStray place b target) (hother : table.FirstStray other c found) :
    place = other ∧ b = c ∧ target = found := by
  have hplace : place = other ∧ b = c := by
    rcases h.first other c found hother.stray with hlt | ⟨rfl, hle⟩
    · rcases hother.first place b target h.stray with hlt' | ⟨heq, -⟩ <;> omega
    · rcases hother.first place b target h.stray with hlt' | ⟨-, hle'⟩
      · omega
      · exact ⟨rfl, UInt8.le_antisymm hle hle'⟩
  obtain ⟨rfl, rfl⟩ := hplace
  obtain ⟨row, hrow, hnext⟩ := h.stray.edge
  obtain ⟨row', hrow', hnext'⟩ := hother.stray.edge
  obtain rfl := Option.some.inj (hrow.symm.trans hrow')
  exact ⟨rfl, rfl, Option.some.inj (hnext.symm.trans hnext')⟩

/-- The stray target of a row is that of its first edge that leads so far. -/
theorem exists_first_of_strayTarget? {count : Nat} {row : Row}
    (h : strayTarget? count row = some target) :
    ∃ b, row.next? b = some target ∧ count ≤ target.toNat ∧
      ∀ c found, row.next? c = some found → count ≤ found.toNat → b ≤ c := by
  rw [strayTarget?, List.find?_map] at h
  obtain ⟨⟨b, _⟩, hfind, rfl⟩ := Option.map_eq_some_iff.mp h
  obtain ⟨hpast, front, back, hedges, hfront⟩ := List.find?_eq_some_iff_append.mp hfind
  refine ⟨b, Row.mem_edges.mp (by simp [hedges]), by simpa using hpast, ?_⟩
  intro c found hnext hle
  have hmem := Row.mem_edges.mpr hnext
  have hsorted := row.pairwise_edges
  rw [hedges] at hmem hsorted
  rcases List.mem_append.mp hmem with hbefore | hbehind
  · have hshort := hfront _ hbefore
    simp only [Function.comp_apply, Bool.not_eq_true', decide_eq_false_iff_not] at hshort
    exact absurd hle hshort
  · rcases List.mem_cons.mp hbehind with heq | hlater
    · cases heq
      exact UInt8.le_refl b
    · have hbehind := (List.pairwise_append.mp hsorted).2.1
      exact UInt8.le_of_lt ((List.pairwise_cons.mp hbehind).1 _ hlater)

/-- There is no stray edge if and only if none is found. -/
theorem strayEdge?_eq_none_iff_not_stray :
    table.strayEdge? = none ↔ ∀ place b target, ¬table.Stray place b target := by
  constructor
  · rintro h place b target ⟨⟨row, hrow, hnext⟩, hpast⟩
    have hlt := target_lt_of_strayEdge?_eq_none h row (Array.mem_of_getElem? hrow) b target hnext
    omega
  · intro h
    apply strayEdge?_eq_none_of_target_lt
    intro row hmem b target hnext
    obtain ⟨place, hplace, rfl⟩ := Array.mem_iff_getElem.mp hmem
    refine Nat.lt_of_not_le fun hpast => h place b target ⟨⟨_, ?_, hnext⟩, hpast⟩
    exact Array.getElem?_eq_getElem hplace

/-- The edge that is found comes before all other stray edges. -/
theorem exists_firstStray_of_strayEdge? {e : TableError} (h : table.strayEdge? = some e) :
    ∃ place b target, table.FirstStray place b target ∧
      e = .outOfRange (State.ofNat place) target (State.ofNat (table.size - 1)) := by
  obtain ⟨front, ⟨row, place⟩, back, hentries, hfound, hfront⟩ := List.findSome?_eq_some_iff.mp h
  obtain ⟨target, hstray, rfl⟩ := Option.map_eq_some_iff.mp hfound
  obtain ⟨b, hnext, hpast, hleast⟩ := exists_first_of_strayTarget? hstray
  obtain ⟨before, rest, hrows, rfl, hrest⟩ := List.zipIdx_eq_append_iff.mp hentries
  cases rest with
  | nil => simp at hrest
  | cons head rest =>
    rw [List.zipIdx_cons, List.cons.injEq, Prod.mk.injEq] at hrest
    obtain ⟨⟨rfl, rfl⟩, -⟩ := hrest
    have hat : ∀ place : Nat, table[place]? = (before ++ row :: rest)[place]? := by
      intro place
      rw [← hrows, Array.getElem?_toList]
    refine ⟨_, b, target, ⟨⟨⟨row, ?_, hnext⟩, hpast⟩, ?_⟩, rfl⟩
    · rw [hat]
      simp
    · rintro other c found ⟨⟨row', hrow', hnext'⟩, hpast'⟩
      rw [hat] at hrow'
      rcases Nat.lt_trichotomy other (0 + before.length) with hlt | rfl | hgt
      · -- a row before the one that was found has no edge so far
        rw [List.getElem?_append_left (by omega)] at hrow'
        have hentry := List.mk_mem_zipIdx_iff_getElem?.mpr hrow'
        have hnone := strayTarget?_eq_none_iff.mp
          (Option.map_eq_none_iff.mp (hfront _ hentry)) c found hnext'
        omega
      · obtain rfl : row = row' := by simpa using hrow'
        exact Or.inr ⟨rfl, hleast c found hnext' hpast'⟩
      · exact Or.inl hgt

/-- An edge out of range is told if it is the first stray edge. The numbers that are told are those
of the row and of the last row, since a table with a stray edge has no more rows than states. -/
theorem strayEdge?_eq_some_iff {source last : State} :
    table.strayEdge? = some (.outOfRange source target last) ↔
      ∃ b, table.FirstStray source.toNat b target ∧ last.toNat = table.size - 1 := by
  have hnumber : ∀ state : State, State.ofNat state.toNat = state := fun state => state.ofNat_toNat
  constructor
  · intro h
    obtain ⟨place, b, target, hfirst, he⟩ := exists_firstStray_of_strayEdge? h
    obtain ⟨hplace, hsize⟩ := hfirst.stray.place_lt
    have hnat : ∀ place < UInt32.size, (State.ofNat place).toNat = place :=
      fun place hlt => UInt32.toNat_ofNat_of_lt' hlt
    rw [TableError.outOfRange.injEq] at he
    obtain ⟨rfl, rfl, rfl⟩ := he
    rw [hnat place (by omega), hnat (table.size - 1) (by omega)]
    exact ⟨b, hfirst, rfl⟩
  · rintro ⟨b, hfirst, hlast⟩
    cases hstray : table.strayEdge? with
    | none => exact absurd hfirst.stray (strayEdge?_eq_none_iff_not_stray.mp hstray _ _ _)
    | some e =>
      obtain ⟨place, c, found, hfirst', rfl⟩ := exists_firstStray_of_strayEdge? hstray
      obtain ⟨rfl, -, rfl⟩ := hfirst.unique hfirst'
      rw [← hlast, hnumber, hnumber]

end Table

namespace Automaton

variable {given : Table} {acceptance : Acceptance}

/-- An edge out of range that is told is the first stray edge. -/
theorem ofTable_eq_outOfRange_iff_firstStray {source target last : State} :
    ofTable given acceptance = .error (.outOfRange source target last) ↔
      ∃ b, (given.pad acceptance.bound).FirstStray source.toNat b target ∧
        last.toNat = (given.pad acceptance.bound).size - 1 := by
  rw [ofTable_eq_error_iff, ← Table.strayEdge?_eq_some_iff]
  constructor
  · rintro (hstray | ⟨-, hcategories⟩)
    · exact hstray
    · obtain ⟨state, first, second, hoverlap⟩ :=
        Acceptance.exists_overlap_of_foldlM_enter hcategories
      cases hoverlap
  · exact Or.inl

/-- An overlap that is told is the first one, in a table without a stray edge. -/
theorem ofTable_eq_overlap_iff_firstOverlap {state : State} {first second : Category} :
    ofTable given acceptance = .error (.overlap state first second) ↔
      (∀ place b target, ¬(given.pad acceptance.bound).Stray place b target) ∧
        acceptance.FirstOverlap state first second := by
  rw [ofTable_eq_error_iff, ← Table.strayEdge?_eq_none_iff_not_stray,
    Acceptance.categoryTable_eq_overlap_iff (given.le_size_pad _)]
  constructor
  · rintro (hstray | hoverlap)
    · obtain ⟨source, target, last, he⟩ := Table.exists_outOfRange_of_strayEdge? hstray
      cases he
    · exact hoverlap
  · exact Or.inr

/-- A table gives an automaton if it has no stray edge and its accepting states do not overlap. -/
theorem exists_ofTable_iff_not_stray :
    (∃ a, ofTable given acceptance = .ok a) ↔
      (∀ place b target, ¬(given.pad acceptance.bound).Stray place b target) ∧
        ¬acceptance.Overlaps := by
  rw [exists_ofTable_iff, Table.strayEdge?_eq_none_iff_not_stray,
    Acceptance.exists_categoryTable_iff (given.le_size_pad _)]

/-- Whether a table is refused does not depend on how often a category repeats its states, or in
which order it lists them. -/
theorem exists_ofTable_congr {other : Acceptance}
    (h : ∀ category state, state ∈ other.states category ↔ state ∈ acceptance.states category) :
    (∃ a, ofTable given other = .ok a) ↔ ∃ a, ofTable given acceptance = .ok a := by
  have hlisted : ∀ state, state ∈ other.listing.map Prod.fst ↔
      state ∈ acceptance.listing.map Prod.fst := by
    intro state
    simp only [List.mem_map, Prod.exists, Acceptance.mem_listing, h]
  have hbound : other.bound = acceptance.bound := by
    rw [← Draft.rowsFor_listing, Draft.rowsFor_congr hlisted, Draft.rowsFor_listing]
  simp only [exists_ofTable_iff_not_stray, hbound, Acceptance.Overlaps, h]

/-- What is told of a table with accepting states, once it is padded for them. An edge out of range
is told if some edge leads past the last row, and then it is the first such edge, with the number of
the last row. Otherwise an overlap is told if two different categories share a state, and then it is
the first one. Otherwise there is an automaton. A state that is repeated within a category never
makes a difference to this. -/
theorem ofTable_tells_first_fault (given : Table) (acceptance : Acceptance) :
    let table := given.pad acceptance.bound
    ((∃ source target last, ofTable given acceptance = .error (.outOfRange source target last)) ↔
      ∃ place b target, table.Stray place b target) ∧
    (∀ source target last, ofTable given acceptance = .error (.outOfRange source target last) ↔
      ∃ b, table.FirstStray source.toNat b target ∧ last.toNat = table.size - 1) ∧
    ((∃ state first second, ofTable given acceptance = .error (.overlap state first second)) ↔
      (∀ place b target, ¬table.Stray place b target) ∧ acceptance.Overlaps) ∧
    (∀ state first second, ofTable given acceptance = .error (.overlap state first second) ↔
      (∀ place b target, ¬table.Stray place b target) ∧
        acceptance.FirstOverlap state first second) ∧
    ((∃ a, ofTable given acceptance = .ok a) ↔
      (∀ place b target, ¬table.Stray place b target) ∧ ¬acceptance.Overlaps) ∧
    ∀ other : Acceptance,
      (∀ category state, state ∈ other.states category ↔ state ∈ acceptance.states category) →
        ((∃ a, ofTable given other = .ok a) ↔ ∃ a, ofTable given acceptance = .ok a) := by
  intro table
  have hstray : (∃ source target last,
      ofTable given acceptance = .error (.outOfRange source target last)) ↔
        ∃ place b target, table.Stray place b target := by
    rw [ofTable_eq_outOfRange_iff, ne_eq, Table.strayEdge?_eq_none_iff_not_stray]
    simp only [not_forall, Classical.not_not, table]
  have hoverlap : (∃ state first second,
      ofTable given acceptance = .error (.overlap state first second)) ↔
        (∀ place b target, ¬table.Stray place b target) ∧ acceptance.Overlaps := by
    simp only [ofTable_eq_overlap_iff_firstOverlap]
    constructor
    · rintro ⟨state, first, second, hno, hfirst⟩
      exact ⟨hno, hfirst.overlaps⟩
    · rintro ⟨hno, hoverlaps⟩
      obtain ⟨state, first, second, hfirst⟩ := hoverlaps.exists_firstOverlap
      exact ⟨state, first, second, hno, hfirst⟩
  exact ⟨hstray, fun _ _ _ => ofTable_eq_outOfRange_iff_firstStray, hoverlap,
    fun _ _ _ => ofTable_eq_overlap_iff_firstOverlap, exists_ofTable_iff_not_stray,
    fun _ => exists_ofTable_congr⟩

/-- Accepting states that are shared by the second category with the first, and by the third with
the second. -/
def clashing : Acceptance :=
  { integerLiteral := [3, 1], operator := [2, 1, 3, 1], separator := [2] }

/-- A table with two rows, the second of which has two edges past the last row. -/
def strayTable : Table :=
  #[Row.empty.add 0x61 1, ((Row.empty.add 0x7A 5).add 0x62 7).add 0x61 0]

/-- Of the stray edges the one on the lesser byte is told, although states overlap, too. Without
them the first of the overlaps is told. A category may repeat a state. -/
theorem ofTable_tells_first_fault_clashing :
    (ofTable strayTable clashing = .error (.outOfRange 1 7 3) ∧
      ∃ b, (strayTable.pad clashing.bound).FirstStray 1 b 7) ∧
    (ofTable #[] clashing = .error (.overlap 1 .integerLiteral .operator) ∧
      clashing.FirstOverlap 1 .integerLiteral .operator) ∧
    ((∃ a, ofTable #[] { operator := [1, 0, 1] } = .ok a) ↔
      ∃ a, ofTable #[] { operator := [0, 1] } = .ok a) := by
  have hrange : ofTable strayTable clashing = .error (.outOfRange 1 7 3) := rfl
  have hoverlap : ofTable #[] clashing = .error (.overlap 1 .integerLiteral .operator) := rfl
  have hsame : ∀ category state,
      state ∈ ({ operator := [1, 0, 1] } : Acceptance).states category ↔
        state ∈ ({ operator := [0, 1] } : Acceptance).states category := by
    intro category state
    cases category <;> simp only [Acceptance.states, List.mem_cons, List.not_mem_nil, or_false]
    grind
  obtain ⟨-, hfirst, -⟩ := ofTable_tells_first_fault strayTable clashing
  obtain ⟨-, -, -, hfirst', -⟩ := ofTable_tells_first_fault #[] clashing
  obtain ⟨-, -, -, -, -, hrepeats⟩ := ofTable_tells_first_fault #[] { operator := [0, 1] }
  obtain ⟨b, hstray, -⟩ := (hfirst 1 7 3).mp hrange
  exact ⟨⟨hrange, b, hstray⟩, ⟨hoverlap, ((hfirst' _ _ _).mp hoverlap).2⟩, hrepeats _ hsame⟩

end Automaton

end TableLexer
