import TableLexer.Table.Error
import TableLexer.Table.Row

/-!
# Tables

A table has a row for each of its states, up to the last one. A state past that has no edges, just
as if it had an empty row, so a table can be padded with empty rows without any edge being gained or
lost. `Table.row` is the view in which the operations are described.
-/

namespace TableLexer

/-- Rows, at the places of their states. -/
abbrev Table := Array Row

namespace Table

/-- The row of a state. A state without a row has no edges. -/
def row (table : Table) (state : State) : Row := table.getD state.toNat Row.empty

/-- A table with at least the given number of rows: missing rows are empty. -/
def pad (table : Table) (count : Nat) : Table := table.rightpad count Row.empty

/-- A table after a change to the row of a state, which is created if it is missing. -/
def modifyRow (table : Table) (state : State) (change : Row → Row) : Table :=
  (table.pad (state.toNat + 1)).modify state.toNat change

/-- The row of a state is found at its place, and is empty if there is none. -/
theorem row_eq (table : Table) (state : State) :
    table.row state = (table[state.toNat]?).getD Row.empty := by
  simp [row, Array.getD_eq_getD_getElem?]

/-- Padding gives a table as many rows as are asked for, unless it has more. -/
theorem size_pad (table : Table) (count : Nat) : (table.pad count).size = max table.size count := by
  simp only [pad, Array.size_rightpad]
  omega

/-- A table that is padded has at least as many rows as are asked for. -/
theorem le_size_pad (table : Table) (count : Nat) : count ≤ (table.pad count).size := by
  rw [size_pad]
  exact Nat.le_max_right _ _

/-- A table that has enough rows is not padded. -/
theorem pad_of_le {table : Table} {count : Nat} (h : count ≤ table.size) :
    table.pad count = table := by
  simp [pad, Array.rightpad, Nat.sub_eq_zero_of_le h]

/-- Padding changes the row of no state. -/
@[simp] theorem row_pad (table : Table) (count : Nat) (state : State) :
    (table.pad count).row state = table.row state := by
  simp only [row_eq, pad, Array.rightpad, Array.getElem?_append, Array.getElem?_replicate]
  by_cases hlt : state.toNat < table.size
  · simp [hlt]
  · rw [if_neg hlt, Array.getElem?_eq_none (by omega)]
    split <;> rfl

/-- A change to the row of a state makes sure that the row exists. -/
theorem size_modifyRow (table : Table) (state : State) (change : Row → Row) :
    (table.modifyRow state change).size = max table.size (state.toNat + 1) := by
  simp only [modifyRow, Array.size_modify, size_pad]

/-- A change to the row of a state changes this row only. -/
theorem row_modifyRow (table : Table) (state other : State) (change : Row → Row) :
    (table.modifyRow state change).row other =
      if state = other then change (table.row other) else table.row other := by
  rw [← row_pad table (state.toNat + 1) other]
  have hsize := size_pad table (state.toNat + 1)
  simp only [modifyRow, row_eq, Array.getElem?_modify, UInt32.toNat_inj]
  by_cases h : state = other
  · subst h
    rw [if_pos rfl, if_pos rfl, Array.getElem?_eq_getElem (by omega)]
    rfl
  · rw [if_neg h, if_neg h]

/-- A state with an edge has a row of its own. -/
theorem exists_getElem?_of_next? {table : Table} {state target : State} {b : UInt8}
    (h : (table.row state).next? b = some target) :
    ∃ row, table[state.toNat]? = some row ∧ row.next? b = some target := by
  rw [row_eq] at h
  cases hrow : table[state.toNat]? with
  | none => simp [hrow] at h
  | some row =>
    rw [hrow, Option.getD_some] at h
    exact ⟨row, rfl, h⟩

/-- Two changes to the row of a state are one. -/
theorem modifyRow_modifyRow (table : Table) (state : State) (first second : Row → Row) :
    (table.modifyRow state first).modifyRow state second =
      table.modifyRow state (second ∘ first) := by
  have hsize := size_modifyRow table state first
  rw [modifyRow, pad_of_le (by omega), modifyRow, modifyRow]
  apply Array.ext_getElem?
  intro place
  simp only [Array.getElem?_modify]
  split
  · rw [Option.map_map]
  · rfl

/-- A change to the row of a state is told by what it does to this row. -/
theorem modifyRow_congr {table : Table} {state : State} {change other : Row → Row}
    (h : change (table.row state) = other (table.row state)) :
    table.modifyRow state change = table.modifyRow state other := by
  rw [← row_pad table (state.toNat + 1), row_eq] at h
  have hsize := size_pad table (state.toNat + 1)
  have hlt : state.toNat < (table.pad (state.toNat + 1)).size := by omega
  have hrow := Array.getElem?_eq_getElem hlt
  rw [hrow, Option.getD_some] at h
  apply Array.ext_getElem?
  intro place
  simp only [modifyRow, Array.getElem?_modify]
  split
  · next hplace => rw [← hplace, hrow, Option.map_some, Option.map_some, h]
  · rfl

/-- The states that have a row in a table, in ascending order. -/
def states (table : Table) : List State :=
  (List.range (min table.size UInt32.size)).map State.ofNat

/-- The rows behind the row of the last state. There are none unless a table has more rows than
there are states. -/
def unnumbered (table : Table) : List Row := table.toList.drop UInt32.size

/-- The states of a table are those below its number of rows. -/
theorem mem_states {table : Table} {state : State} :
    state ∈ table.states ↔ state.toNat < table.size := by
  simp only [states, List.mem_map, List.mem_range]
  constructor
  · rintro ⟨place, hlt, rfl⟩
    have hnat : (State.ofNat place).toNat = place := UInt32.toNat_ofNat_of_lt' (by omega)
    omega
  · intro hlt
    have hstate : state.toNat < UInt32.size := state.toNat_lt_size
    exact ⟨state.toNat, by omega, state.ofNat_toNat⟩

/-- All rows have states if there are no more rows than states. -/
theorem unnumbered_eq_nil_iff {table : Table} :
    table.unnumbered = [] ↔ table.size ≤ UInt32.size := by
  rw [unnumbered, List.drop_eq_nil_iff, Array.length_toList]

/-- A table consists of the rows of its states and of the rows behind them. -/
theorem toList_eq (table : Table) :
    table.toList = table.states.map table.row ++ table.unnumbered := by
  have hnumbered : table.toList.take UInt32.size = table.states.map table.row := by
    apply List.ext_getElem
    · simp [states, Nat.min_comm]
    · intro place hplace _
      have hlt : place < min UInt32.size table.size := by simpa using hplace
      have hnat : (State.ofNat place).toNat = place := UInt32.toNat_ofNat_of_lt' (by omega)
      have hrow : table[place]? = some table[place] := Array.getElem?_eq_getElem (by omega)
      simp [states, row_eq, hnat, hrow]
  rw [← hnumbered, unnumbered, List.take_append_drop]

/-- Tables with equally many rows are equal if the states have equal rows and the rows behind them
are equal, too. -/
theorem ext_row_unnumbered {left right : Table} (hsize : left.size = right.size)
    (hrow : ∀ state, left.row state = right.row state)
    (hunnumbered : left.unnumbered = right.unnumbered) : left = right := by
  have hstates : left.states = right.states := by rw [states, states, hsize]
  apply Array.toList_inj.mp
  calc left.toList
    _ = left.states.map left.row ++ left.unnumbered := left.toList_eq
    _ = right.states.map right.row ++ right.unnumbered := by
      rw [hstates, hunnumbered, funext hrow]
    _ = right.toList := right.toList_eq.symm

/-- Tables with equally many rows are equal if the states have equal rows, as long as there are no
more rows than states. -/
theorem ext_row {left right : Table} (hsize : left.size = right.size)
    (hle : left.size ≤ UInt32.size) (h : ∀ state, left.row state = right.row state) :
    left = right := by
  apply ext_row_unnumbered hsize h
  rw [unnumbered_eq_nil_iff.mpr hle, unnumbered_eq_nil_iff.mpr (hsize ▸ hle)]

/-- The first edge of a row, by its byte, that leads out of a table with the given number of
rows. -/
def strayTarget? (count : Nat) (row : Row) : Option State :=
  (row.edges.map (·.2)).find? fun target => count ≤ target.toNat

/-- The first edge that leads out of a table, in the order of the rows and then of the bytes. -/
def strayEdge? (table : Table) : Option TableError :=
  table.toList.zipIdx.findSome? fun (row, place) =>
    (strayTarget? table.size row).map fun target =>
      .outOfRange (State.ofNat place) target (State.ofNat (table.size - 1))

/-- A row has no stray target if all of its edges stay below the number of rows. -/
theorem strayTarget?_eq_none_iff {count : Nat} {row : Row} :
    strayTarget? count row = none ↔
      ∀ b target, row.next? b = some target → target.toNat < count := by
  simp only [strayTarget?, List.find?_eq_none, List.mem_map, Prod.exists, Row.mem_edges,
    decide_eq_true_eq, Nat.not_le]
  constructor
  · intro h b target hnext
    exact h target ⟨b, target, hnext, rfl⟩
  · rintro h _ ⟨b, target, hnext, rfl⟩
    exact h b target hnext

/-- In a table without a stray edge, every edge leads to a state with a row. -/
theorem target_lt_of_strayEdge?_eq_none {table : Table} (h : table.strayEdge? = none) :
    ∀ row ∈ table, ∀ b target, row.next? b = some target → target.toNat < table.size := by
  intro row hrow
  obtain ⟨place, hlt, hplace⟩ := Array.mem_iff_getElem.mp hrow
  have hentry : (row, place) ∈ table.toList.zipIdx :=
    List.mk_mem_zipIdx_iff_getElem?.mpr (by simp [hlt, hplace])
  have hstray := List.findSome?_eq_none_iff.mp h _ hentry
  exact strayTarget?_eq_none_iff.mp (Option.map_eq_none_iff.mp hstray)

/-- A table in which every edge leads to a state with a row has no stray edge. -/
theorem strayEdge?_eq_none_of_target_lt {table : Table}
    (h : ∀ row ∈ table, ∀ b target, row.next? b = some target → target.toNat < table.size) :
    table.strayEdge? = none := by
  refine List.findSome?_eq_none_iff.mpr fun (row, place) hentry => ?_
  have hrow : row ∈ table := Array.mem_toList_iff.mp (List.fst_mem_of_mem_zipIdx hentry)
  exact Option.map_eq_none_iff.mpr (strayTarget?_eq_none_iff.mpr (h row hrow))

/-- A stray edge is told as an edge out of range. -/
theorem exists_outOfRange_of_strayEdge? {table : Table} {e : TableError}
    (h : table.strayEdge? = some e) : ∃ source target last, e = .outOfRange source target last := by
  obtain ⟨⟨row, place⟩, -, hfound⟩ := List.exists_of_findSome?_eq_some h
  obtain ⟨target, -, rfl⟩ := Option.map_eq_some_iff.mp hfound
  exact ⟨_, target, _, rfl⟩

/-- With no more rows than there are states, a table has no stray edge if and only if the edges of
all states lead to states with a row. -/
theorem strayEdge?_eq_none_iff {table : Table} (hsize : table.size ≤ UInt32.size) :
    table.strayEdge? = none ↔
      ∀ state b target, (table.row state).next? b = some target → target.toNat < table.size := by
  constructor
  · intro h state b target hnext
    obtain ⟨row, hrow, hedge⟩ := exists_getElem?_of_next? hnext
    exact target_lt_of_strayEdge?_eq_none h row (Array.mem_of_getElem? hrow) b target hedge
  · intro h
    apply strayEdge?_eq_none_of_target_lt
    intro row hrow b target hnext
    obtain ⟨place, hplace, rfl⟩ := Array.mem_iff_getElem.mp hrow
    have hnat : (State.ofNat place).toNat = place := UInt32.toNat_ofNat_of_lt' (by omega)
    apply h (State.ofNat place) b
    rw [row_eq, hnat, Array.getElem?_eq_getElem hplace]
    exact hnext

end Table

end TableLexer
