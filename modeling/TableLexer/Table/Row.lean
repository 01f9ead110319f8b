import TableLexer.ByteClass
import TableLexer.State

/-!
# Rows of a table

A row holds the edges that leave one state, as one cell for each byte. What a row means is told by
`Row.next?`: every operation is described by what it does to that view, and two rows are equal as
soon as their views are.
-/

namespace TableLexer

/-- The edges out of one state: for each byte the code of its target, or the code of no edge. -/
structure Row where
  /-- The cells, in the order of the bytes. -/
  cells : Vector State 256
  deriving DecidableEq

namespace Row

/-- The row without edges. -/
def empty : Row := ⟨Vector.replicate 256 State.noEdge⟩

/-- The code in the cell of a byte. -/
def code (row : Row) (b : UInt8) : State :=
  have hb : b.toNat < 256 := b.toNat_lt
  row.cells[b.toNat]

/-- The target of the edge on a byte, if there is one. -/
def next? (row : Row) (b : UInt8) : Option State :=
  if row.code b = State.noEdge then none else some (row.code b)

/-- Writes a code into the cell of a byte. -/
def set (row : Row) (b : UInt8) (code : State) : Row :=
  have hb : b.toNat < 256 := b.toNat_lt
  ⟨row.cells.set b.toNat code⟩

/-- Adds an edge on a byte, unless there is one already: the first definition wins. -/
def add (row : Row) (b : UInt8) (code : State) : Row :=
  if row.code b = State.noEdge then row.set b code else row

/-- Changes every cell, given its byte and its code. -/
def mapCells (change : UInt8 → State → State) (row : Row) : Row :=
  ⟨⟨(List.zipWith change allBytes row.cells.toList).toArray, by simp [length_allBytes]⟩⟩

/-- Adds edges to one state on all bytes of a class, where there are none. -/
def addAll (row : Row) (contains : UInt8 → Bool) (code : State) : Row :=
  row.mapCells fun b old => if old = State.noEdge && contains b then code else old

/-- Takes the edge on a byte out. -/
def erase (row : Row) (b : UInt8) : Row := row.set b State.noEdge

/-- The edges of a row with their bytes, in ascending order of the bytes. -/
def edges (row : Row) : List (UInt8 × State) :=
  (allBytes.zip row.cells.toList).filter fun cell => cell.2 != State.noEdge

/-- All cells of the empty row have the code of no edge. -/
theorem code_empty (b : UInt8) : empty.code b = State.noEdge := by
  simp [code, empty]

/-- The cells hold the codes of all bytes. -/
theorem cells_eq (row : Row) : row.cells.toList = allBytes.map row.code := by
  apply List.ext_getElem
  · simp [length_allBytes]
  · intro i hi _
    have hi' : i < 256 := by simpa using hi
    have hbyte : i.toUInt8.toNat = i := by simp [Nat.mod_eq_of_lt hi']
    simp [allBytes, code, hbyte]

/-- A code is written into the cell of its byte and into no other. -/
theorem code_set (row : Row) (b c : UInt8) (code : State) :
    (row.set b code).code c = if b = c then code else row.code c := by
  simp only [Row.code, set, Vector.getElem_set, UInt8.toNat_inj]

/-- Every cell is changed by its own byte and code. -/
theorem code_mapCells (change : UInt8 → State → State) (row : Row) (b : UInt8) :
    (row.mapCells change).code b = change b (row.code b) := by
  have hb : b.toNat < 256 := b.toNat_lt
  simp [code, mapCells, allBytes]

/-- The empty row has no edges. -/
@[simp] theorem next?_empty (b : UInt8) : empty.next? b = none := by
  simp [next?, code_empty]

/-- No edge leads to the code of no edge. -/
theorem ne_noEdge_of_next? {row : Row} {b : UInt8} {target : State}
    (h : row.next? b = some target) : target ≠ State.noEdge := by
  unfold next? at h
  split at h
  · cases h
  · next hcode => exact Option.some.inj h ▸ hcode

/-- The edge on a byte is taken out, and all others stay. -/
theorem next?_erase (row : Row) (b c : UInt8) :
    (row.erase b).next? c = if b = c then none else row.next? c := by
  by_cases h : b = c <;> simp [next?, erase, code_set, h]

/-- An edge that is there stays; a free cell takes the new code. -/
theorem next?_add (row : Row) (b c : UInt8) (code : State) :
    (row.add b code).next? c =
      if b = c then row.next? c <|> (if code = State.noEdge then none else some code)
      else row.next? c := by
  by_cases hfree : row.code b = State.noEdge
  · by_cases h : b = c
    · subst h
      simp [next?, add, code_set, hfree]
    · simp [next?, add, code_set, hfree, h]
  · by_cases h : b = c
    · subst h
      simp [next?, add, hfree]
    · simp [add, hfree, h]

/-- Of all bytes, those of the class without an edge get one. -/
theorem next?_addAll (row : Row) (contains : UInt8 → Bool) (b : UInt8) (code : State) :
    (row.addAll contains code).next? b =
      if contains b then row.next? b <|> (if code = State.noEdge then none else some code)
      else row.next? b := by
  by_cases hfree : row.code b = State.noEdge <;> by_cases hb : contains b <;>
    simp [next?, addAll, code_mapCells, hfree, hb]

/-- The code of a cell can be told from the view. -/
theorem code_eq (row : Row) (b : UInt8) : row.code b = (row.next? b).getD State.noEdge := by
  by_cases h : row.code b = State.noEdge <;> simp [next?, h]

/-- Rows with the same edges are equal. -/
theorem ext_next? {left right : Row} (h : ∀ b, left.next? b = right.next? b) : left = right := by
  have hcode : ∀ b, left.code b = right.code b := by
    intro b
    rw [code_eq, code_eq, h]
  cases left with | mk left =>
  cases right with | mk right =>
  congr
  apply Vector.ext
  intro i hi
  have hb := hcode i.toUInt8
  have hi' : i.toUInt8.toNat = i := by simp [Nat.mod_eq_of_lt hi]
  simpa only [code, hi'] using hb

/-- The edges are those on all bytes that have one. -/
theorem edges_eq (row : Row) :
    row.edges = allBytes.filterMap fun b => (row.next? b).map (b, ·) := by
  rw [edges, cells_eq]
  induction allBytes with
  | nil => rfl
  | cons b bytes ih =>
    rw [List.map_cons, List.zip_cons_cons, List.filterMap_cons, List.filter_cons, ih]
    by_cases h : row.code b = State.noEdge <;> simp [next?, h]

/-- The listed edges are those on all bytes. -/
theorem mem_edges {row : Row} {b : UInt8} {target : State} :
    (b, target) ∈ row.edges ↔ row.next? b = some target := by
  simp only [edges_eq, List.mem_filterMap, Option.map_eq_some_iff, Prod.mk.injEq]
  constructor
  · rintro ⟨c, -, t, ht, rfl, rfl⟩
    exact ht
  · intro h
    exact ⟨b, mem_allBytes b, target, h, rfl, rfl⟩

/-- The edges come in strictly ascending order of their bytes. -/
theorem pairwise_edges (row : Row) : row.edges.Pairwise fun edge later => edge.1 < later.1 := by
  rw [edges_eq, List.pairwise_filterMap]
  refine pairwise_allBytes.imp fun {b c} hlt edge hedge later hlater => ?_
  obtain ⟨_, -, rfl⟩ := Option.map_eq_some_iff.mp hedge
  obtain ⟨_, -, rfl⟩ := Option.map_eq_some_iff.mp hlater
  exact hlt

end Row

end TableLexer
