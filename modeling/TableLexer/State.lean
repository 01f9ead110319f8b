/-!
# States

A table numbers its states from zero. The largest 32-bit number names no state: a cell of a table
that holds it has no edge. Only the cells themselves, and the formats that write them out, speak of
that code; everywhere else a missing edge is `none`.
-/

namespace TableLexer

/-- A state of an automaton, given by its number, which is also the number of its row. -/
abbrev State := UInt32

/-- The state in which every token begins, and to which skipped text returns. -/
def State.start : State := 0

/-- The code of a cell without an edge. It is no state. -/
def State.noEdge : State := 0xFFFFFFFF

/-- A number of rows, or the number of a row, as a state. -/
abbrev State.ofNat (n : Nat) : State := n.toUInt32

end TableLexer
