import TableLexer.Table.Row

/-!
# Rules

A rule describes edges from one state to another by the class of the bytes they are on. Rules act
on rows: an edge that is there stays as it is, and an exclusion may take one edge back.
-/

namespace TableLexer

/-- The bytes that a rule is about. -/
inductive Symbol where
  /-- One byte. -/
  | byte (b : UInt8)
  /-- The bytes that may open an identifier. -/
  | letter
  /-- The bytes that may continue an identifier, but not open one. -/
  | digitLike
  /-- The separators. -/
  | separator
  /-- All bytes but one. -/
  | exclude (b : UInt8)
  /-- All bytes. -/
  | any
  deriving DecidableEq, Repr

namespace Symbol

/-- Whether a symbol stands for a byte when it adds edges. -/
def contains (symbol : Symbol) (b : UInt8) : Bool :=
  match symbol with
  | byte x => b == x
  | letter => ByteClass.isLetter b
  | digitLike => ByteClass.isDigitLike b
  | separator => ByteClass.isSeparator b
  | exclude x => b != x
  | any => true

/-- The bytes that a symbol stands for, in ascending order. -/
def bytes (symbol : Symbol) : List UInt8 := allBytes.filter symbol.contains

/-- The bytes of a symbol are those that it contains. -/
theorem mem_bytes {symbol : Symbol} {b : UInt8} : b ∈ symbol.bytes ↔ symbol.contains b := by
  simp [bytes, List.mem_filter, mem_allBytes]

end Symbol

/-- Edges from one state to another, on every byte of a symbol. -/
structure Rule where
  /-- The state that the edges leave. -/
  source : State
  /-- The state that the edges reach. -/
  target : State
  /-- The bytes that the edges are on. -/
  symbol : Symbol
  deriving DecidableEq, Repr

/-- The byte whose edge a rule takes back from the row of its source. An exclusion takes back the
edge on its byte when that edge already leads to the target of the rule: a second exclusion for the
same two states adds to the set of excluded bytes. -/
def Rule.retracted? (rule : Rule) (row : Row) : Option UInt8 :=
  match rule.symbol with
  | .exclude b => if row.next? b = some rule.target then some b else none
  | _ => none

/-- A rule takes an edge back if it excludes the byte of an edge to its own target. -/
theorem Rule.retracted?_eq_some_iff {rule : Rule} {row : Row} {b : UInt8} :
    rule.retracted? row = some b ↔
      rule.symbol = .exclude b ∧ row.next? b = some rule.target := by
  unfold retracted?
  split
  · next x hsymbol =>
    rw [hsymbol, Symbol.exclude.injEq]
    split
    · next hedge =>
      constructor
      · rintro ⟨⟩
        exact ⟨rfl, hedge⟩
      · rintro ⟨rfl, -⟩
        rfl
    · next hedge =>
      constructor
      · rintro ⟨⟩
      · rintro ⟨rfl, hsame⟩
        exact absurd hsame hedge
  · next hother =>
    constructor
    · rintro ⟨⟩
    · rintro ⟨hsymbol, -⟩
      exact absurd hsymbol (hother b)

/-- The row of the source of a rule after the rule: the one retracted edge is gone, or else the
edges of the rule are added. -/
def Rule.applyTo (rule : Rule) (row : Row) : Row :=
  match rule.retracted? row with
  | some b => row.erase b
  | none => row.addAll rule.symbol.contains rule.target

end TableLexer
