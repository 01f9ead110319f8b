import Mathlib.Algebra.GroupWithZero.Nat
import Mathlib.Data.List.Basic
import TableLexer.Proofs.Automaton.Rebuilding
import TableLexer.Proofs.Document.RoundTrip

/-!
# Views of an automaton

An automaton can be asked for the edge of a state on a byte, for the list of all edges of a state,
and for the number of edges in all. The views tell the same. They also tell everything: automata
with equally many states and the same accepting states are equal as soon as they have the same
edges. The categories of the states need not be compared, since they follow from the accepting
states.

Only a row that has a state can be asked for. A document can hold more rows than there are states,
and what it holds behind them is seen by the number of edges and by comparing automata, but by no
other view. So both statements need that all rows have states: a single edge behind the last state
makes the views disagree. Rules never lead to such rows.
-/

namespace TableLexer

namespace Row

/-- No edge of a row is listed twice. -/
theorem nodup_edges (row : Row) : row.edges.Nodup := by
  refine row.pairwise_edges.imp fun hlt heq => ?_
  rw [heq] at hlt
  exact UInt8.lt_irrefl _ hlt

/-- Rows that list the same edges are equal. -/
theorem edges_injective : Function.Injective edges := by
  intro left right h
  refine ext_next? fun b => Option.ext fun target => ?_
  rw [← mem_edges, h, mem_edges]

/-- The row without edges lists none. -/
theorem edges_empty : empty.edges = [] := by
  refine List.eq_nil_iff_forall_not_mem.mpr fun (b, target) hmem => ?_
  have hnext := mem_edges.mp hmem
  rw [next?_empty] at hnext
  cases hnext

end Row

namespace Table

/-- So many empty rows, and one more row behind them. -/
def withLast (count : Nat) (last : Row) : Table := (Array.replicate count Row.empty).push last

variable {count : Nat} {last : Row}

/-- The table has one row more than there are empty ones. -/
theorem size_withLast : (withLast count last).size = count + 1 := by
  rw [withLast, Array.size_push, Array.size_replicate]

/-- Only the last row can have edges. -/
theorem row_withLast {state : State} (hstate : state.toNat < count) :
    (withLast count last).row state = Row.empty := by
  rw [row_eq, withLast, Array.getElem?_push_lt (by simpa using hstate), Array.getElem_replicate,
    Option.getD_some]

/-- Behind as many empty rows as there are states, the last row has no state. -/
theorem unnumbered_withLast : (withLast UInt32.size last).unnumbered = [last] := by
  rw [unnumbered, withLast, Array.toList_push, Array.toList_replicate]
  exact List.drop_left' List.length_replicate

end Table

namespace Automaton

/-- The list of the edges of a state agrees with the edges on the bytes. -/
structure ListsEdges (a : Automaton) (state : State) : Prop where
  /-- The bytes are strictly ascending. -/
  ascending : (a.edges state).Pairwise fun edge later => edge.1 < later.1
  /-- Nothing is repeated. -/
  nodup : (a.edges state).Nodup
  /-- What is listed are the edges of the state. -/
  mem_iff : ∀ b target, (b, target) ∈ a.edges state ↔ a.next state b = .ok target
  /-- A state without a row has no edges. -/
  eq_nil : state ∉ a.table.states → a.edges state = []

/-- Two automata answer alike when they are asked for their size, for their accepting states and for
edges. -/
structure Alike (a b : Automaton) : Prop where
  /-- They have equally many states. -/
  size_eq : a.size = b.size
  /-- They have the same accepting states, listed in the same way. -/
  acceptance_eq : a.acceptance = b.acceptance
  /-- Every state has the same edge on every byte, or it has none in both. -/
  next_eq : ∀ state byte, a.next state byte = b.next state byte

variable {a b : Automaton}

/-- The edges of every state are listed as they are. -/
theorem listsEdges (a : Automaton) (state : State) : a.ListsEdges state where
  ascending := Row.pairwise_edges _
  nodup := Row.nodup_edges _
  mem_iff := by
    intro b target
    rw [mem_edges, next_eq_ok_iff]
  eq_nil := by
    intro hstate
    refine List.eq_nil_iff_forall_not_mem.mpr fun (b, target) hmem => hstate ?_
    exact Table.mem_states.mpr (lt_size_of_next? (mem_edges.mp hmem))

/-- The number of all edges is that of the listed ones and of those in rows without a state. -/
theorem edgeCount_eq (a : Automaton) :
    a.edgeCount = (a.table.states.map fun state => (a.edges state).length).sum +
      (a.table.unnumbered.flatMap Row.edges).length := by
  rw [edgeCount, Table.toList_eq, List.flatMap_append, List.length_append, List.flatMap_map,
    List.length_flatMap]
  rfl

/-- The same answer to a question for an edge means the same edge. -/
theorem next?_eq_of_next_eq {state : State} {byte : UInt8}
    (h : a.next state byte = b.next state byte) : a.next? state byte = b.next? state byte := by
  apply Option.ext
  intro target
  rw [← next_eq_ok_iff, h, next_eq_ok_iff]

/-- An automaton answers like itself. -/
theorem Alike.refl (a : Automaton) : a.Alike a := ⟨rfl, rfl, fun _ _ => rfl⟩

/-- Automata that answer alike have equal rows for all states. -/
theorem Alike.row_eq (h : a.Alike b) (state : State) : a.table.row state = b.table.row state :=
  Row.ext_next? fun byte => next?_eq_of_next_eq (h.next_eq state byte)

/-- Automata are equal if they answer alike and have the same rows without a state. -/
theorem eq_iff_alike_and_unnumbered :
    a = b ↔ a.Alike b ∧ a.table.unnumbered = b.table.unnumbered := by
  constructor
  · rintro rfl
    exact ⟨.refl a, rfl⟩
  · rintro ⟨h, hunnumbered⟩
    -- equal tables have equal categories, as the accepting states are the same
    exact eq_of_table_eq (Table.ext_row_unnumbered h.size_eq h.row_eq hunnumbered) h.acceptance_eq

/-- Automata that answer alike are equal if all of their rows have states. -/
theorem eq_iff_alike (hsize : a.size ≤ UInt32.size) : a = b ↔ a.Alike b := by
  rw [eq_iff_alike_and_unnumbered, and_iff_left_iff_imp]
  intro h
  have hsize' : b.size ≤ UInt32.size := h.size_eq ▸ hsize
  rw [Table.unnumbered_eq_nil_iff.mpr hsize, Table.unnumbered_eq_nil_iff.mpr hsize']

/-- Rows without a state come from a document that holds more rows than there are states. -/
theorem Constructed.size_le_or_exists_document {acceptance : Acceptance}
    (h : a.Constructed acceptance) :
    a.size ≤ UInt32.size ∨ ∃ document rows, Automaton.ofDocument document = .ok a ∧
      (Json.read? document).bind tableOfJson? = some (rows, acceptance) ∧
        UInt32.size < rows.length := by
  cases h with
  | ofText text h =>
    obtain ⟨rules, -, hbuild⟩ := ofText_eq_ok_iff.mp h
    left
    rw [size_of_ofRules hbuild]
    exact Draft.rowsNeeded_le _ _
  | ofRules rules h =>
    left
    rw [size_of_ofRules h]
    exact Draft.rowsNeeded_le _ _
  | ofSteps steps h =>
    left
    rw [Draft.size_of_build h]
    exact Draft.rowsNeeded_le _ _
  | ofDocument document rows hread h =>
    -- padding for accepting states adds no row without a state, so the document holds them all
    obtain ⟨rows', acceptance', hread', htable⟩ := ofDocument_eq_ok_iff.mp h
    obtain ⟨rfl, rfl⟩ : rows = rows' ∧ acceptance = acceptance' := by
      simpa using hread.symm.trans hread'
    have hbound : acceptance.bound ≤ UInt32.size := acceptance.bound_le
    have hsize : a.size = max rows.length acceptance.bound := by
      rw [size, (eq_of_ofTable htable).1, Table.size_pad, List.size_toArray]
    by_cases hmany : UInt32.size < rows.length
    · exact Or.inr ⟨document, rows, h, hread, hmany⟩
    · left
      omega

/-- Every automaton is constructed from its own document. -/
theorem constructed_of_document (a : Automaton) : a.Constructed a.acceptance := by
  have hread : (Json.read? a.document).bind tableOfJson? = some (a.table.toList, a.acceptance) := by
    rw [read?_document, Option.bind_some, tableOfJson?_toJson]
  exact .ofDocument a.document a.table.toList hread
    (ofDocument_eq_ok_iff.mpr ⟨_, _, hread, ofTable_self a⟩)

/-! ### A row without a state -/

/-- A row of any edges can stand behind as many empty rows as there are states. -/
theorem exists_table_eq_withLast (last : Row) :
    ∃ a : Automaton, a.table = .withLast UInt32.size last ∧ a.acceptance = {} := by
  have hpad : (Table.withLast UInt32.size last).pad ({} : Acceptance).bound =
      .withLast UInt32.size last := Table.pad_of_le (Nat.zero_le _)
  have hstray : (Table.withLast UInt32.size last).strayEdge? = none := by
    apply Table.strayEdge?_eq_none_of_target_lt
    intro row hrow b target hnext
    rw [Table.size_withLast]
    exact Nat.lt_succ_of_lt target.toNat_lt_size
  obtain ⟨a, hbuilds⟩ : ∃ a, ofTable (.withLast UInt32.size last) {} = .ok a := by
    rw [exists_ofTable_iff, hpad]
    exact ⟨hstray, _, rfl⟩
  obtain ⟨htable, hacceptance⟩ := eq_of_ofTable hbuilds
  exact ⟨a, htable.trans hpad, hacceptance⟩

section WithLast

variable {last other : Row} (ha : a.table = .withLast UInt32.size last)

include ha

/-- All states have empty rows. -/
theorem row_of_withLast (state : State) : a.table.row state = Row.empty := by
  rw [ha, Table.row_withLast state.toNat_lt_size]

/-- The states list no edges. -/
theorem sum_edges_of_withLast :
    (a.table.states.map fun state => (a.edges state).length).sum = 0 := by
  refine List.sum_eq_zero_iff_forall_eq_nat.mpr fun length hlength => ?_
  obtain ⟨state, -, rfl⟩ := List.mem_map.mp hlength
  rw [edges, row_of_withLast ha, Row.edges_empty, List.length_nil]

/-- The edges of the last row are counted. -/
theorem edgeCount_of_withLast : a.edgeCount = last.edges.length := by
  rw [edgeCount_eq, sum_edges_of_withLast ha, ha, Table.unnumbered_withLast, List.flatMap_singleton,
    Nat.zero_add]

/-- Which row is the last one makes no difference to the answers. -/
theorem alike_of_withLast (hb : b.table = .withLast UInt32.size other)
    (hacceptance : a.acceptance = b.acceptance) : a.Alike b where
  size_eq := by rw [size, size, ha, hb, Table.size_withLast, Table.size_withLast]
  acceptance_eq := hacceptance
  next_eq := by
    intro state byte
    rw [next, next, next?, next?, row_of_withLast ha, row_of_withLast hb]

end WithLast

/-! ### The views -/

/-- The views of an automaton agree, whatever it is built from. The edges of a state are listed by
strictly ascending bytes, and they are the edges that it has on the bytes. If all rows have states,
there are as many edges as the states have in all, and two automata are equal if and only if they
answer alike. Automata with rows behind the last state have the edges in these rows besides, and
they are equal if these rows are equal, too; only a document with more rows than there are states
gives such an automaton. -/
theorem views_agree :
    (∀ (a : Automaton) (state : State), a.ListsEdges state) ∧
    (∀ a : Automaton, a.size ≤ UInt32.size →
      a.edgeCount = (a.table.states.map fun state => (a.edges state).length).sum ∧
        ∀ b : Automaton, a = b ↔ a.Alike b) ∧
    (∀ a : Automaton,
      a.edgeCount = (a.table.states.map fun state => (a.edges state).length).sum +
        (a.table.unnumbered.flatMap Row.edges).length) ∧
    (∀ a b : Automaton, a = b ↔ a.Alike b ∧ a.table.unnumbered = b.table.unnumbered) ∧
    ∀ (a : Automaton) (acceptance : Acceptance), a.Constructed acceptance →
      a.size ≤ UInt32.size ∨ ∃ document rows, Automaton.ofDocument document = .ok a ∧
        (Json.read? document).bind tableOfJson? = some (rows, acceptance) ∧
          UInt32.size < rows.length := by
  refine ⟨listsEdges, fun a hsize => ⟨?_, fun b => eq_iff_alike hsize⟩, edgeCount_eq,
    fun a b => eq_iff_alike_and_unnumbered, fun a acceptance h => h.size_le_or_exists_document⟩
  rw [edgeCount_eq, Table.unnumbered_eq_nil_iff.mpr hsize]
  rfl

/-- A single edge in the row behind the last state is counted, but no state lists it. Without it the
automaton is another one, which still answers alike. Both are constructed, from documents with one
row more than there are states. -/
theorem views_disagree_behind_states :
    ∃ a b : Automaton, a.table = .withLast UInt32.size (Row.empty.add 0x61 0) ∧
      b.table = .withLast UInt32.size Row.empty ∧ a.Constructed {} ∧ b.Constructed {} ∧
      a.edgeCount = 1 ∧ (a.table.states.map fun state => (a.edges state).length).sum = 0 ∧
      a.Alike b ∧ a ≠ b := by
  have hedge : (Row.empty.add 0x61 0).edges.length = 1 := by decide +kernel
  obtain ⟨a, ha, hacceptance⟩ := exists_table_eq_withLast (Row.empty.add 0x61 0)
  obtain ⟨b, hb, hacceptance'⟩ := exists_table_eq_withLast Row.empty
  have hcount : a.edgeCount = 1 := (edgeCount_of_withLast ha).trans hedge
  have hne : a ≠ b := by
    rintro rfl
    rw [edgeCount_of_withLast hb, Row.edges_empty] at hcount
    cases hcount
  exact ⟨a, b, ha, hb, hacceptance ▸ a.constructed_of_document,
    hacceptance' ▸ b.constructed_of_document, hcount, sum_edges_of_withLast ha,
    alike_of_withLast ha hb (hacceptance.trans hacceptance'.symm), hne⟩

/-- The edges of the automaton of numbers, added on their own and in another order. -/
def numeralSteps : List Draft.Step :=
  [.add 3 3 0x31, .add 1 1 0x31, .add 2 3 0x31, .add 1 2 0x2E, .add 0 1 0x31, .add 0 0 0x20]

/-- The automaton of these edges. -/
def addedNumerals : Automaton :=
  ((Draft.ofSteps numeralSteps).build numeralAcceptance).toOption.get (by decide +kernel)

/-- The second state lists the edge on the point before that on the digit, and the states list six
edges in all. The automaton of single edges answers alike, so it is the same. -/
theorem views_agree_numerals :
    numerals.edges 1 = [(0x2E, 2), (0x31, 1)] ∧ numerals.next 1 0x2E = .ok 2 ∧
    numerals.size ≤ UInt32.size ∧ numerals.edgeCount = 6 ∧
    numerals.Alike addedNumerals ∧ numerals = addedNumerals ∧
    numerals.Constructed numeralAcceptance ∧
      (numerals.size ≤ UInt32.size ∨
        ∃ document rows, Automaton.ofDocument document = .ok numerals ∧
          (Json.read? document).bind tableOfJson? = some (rows, numeralAcceptance) ∧
            UInt32.size < rows.length) := by
  have hedges : numerals.edges 1 = [(0x2E, 2), (0x31, 1)] := by decide +kernel
  have hsize : numerals.size ≤ UInt32.size := by decide +kernel
  have hsum : (numerals.table.states.map fun state => (numerals.edges state).length).sum = 6 := by
    decide +kernel
  -- the lists of the edges are compared in place of the cells, which are many more
  have hlisted :
      numerals.table.toList.map Row.edges = addedNumerals.table.toList.map Row.edges := by
    decide +kernel
  have htable : numerals.table = addedNumerals.table :=
    Array.toList_inj.mp (List.map_injective_iff.mpr Row.edges_injective hlisted)
  have halike : numerals.Alike addedNumerals := {
    size_eq := by rw [size, size, htable]
    acceptance_eq := by decide +kernel
    next_eq := fun state byte => by rw [next, next, next?, next?, htable] }
  have hconstructed : numerals.Constructed numeralAcceptance := .ofRules _ ofRules_numerals
  obtain ⟨hlists, hnumbered, -, -, hrows⟩ := views_agree
  obtain ⟨hcount, hequal⟩ := hnumbered numerals hsize
  have hpoint : numerals.next 1 0x2E = .ok 2 :=
    ((hlists numerals 1).mem_iff 0x2E 2).mp (by rw [hedges]; exact List.mem_cons_self)
  exact ⟨hedges, hpoint, hsize, hcount.trans hsum, halike, (hequal addedNumerals).mpr halike,
    hconstructed, hrows numerals numeralAcceptance hconstructed⟩

end Automaton

end TableLexer
