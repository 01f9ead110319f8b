import TableLexer.Table.Error

/-!
# Accepting states

The accepting states of an automaton are listed by the category of the lexemes that they accept. A
list keeps its order and its repetitions, since both are written out again. A state may be repeated
within a category, but no state may be listed for two categories: `Acceptance.categoryTable` turns
the lists into one category for each state, or tells the first overlap.
-/

namespace TableLexer

/-- The accepting states for each of the categories that states can have. -/
structure Acceptance where
  /-- The states that accept identifiers. -/
  identifier : List State := []
  /-- The states that accept integer literals. -/
  integerLiteral : List State := []
  /-- The states that accept floating-point literals. -/
  floatingPointLiteral : List State := []
  /-- The states that accept character literals. -/
  characterLiteral : List State := []
  /-- The states that accept string literals. -/
  stringLiteral : List State := []
  /-- The states that accept operators. -/
  operator : List State := []
  /-- The states that accept separators. -/
  separator : List State := []
  deriving DecidableEq, Repr

namespace Acceptance

/-- No accepting states. -/
def empty : Acceptance := {}

/-- The accepting states of a full rule file for Java. -/
def java : Acceptance where
  identifier := [57, 58]
  integerLiteral := [1, 4, 6, 7, 20, 21, 23, 24, 25, 27, 39, 42, 59, 65]
  floatingPointLiteral := [2, 14, 15, 17, 28, 29, 30, 32, 35, 37, 38, 40]
  characterLiteral := [66]
  stringLiteral := [67]
  operator := [53, 68, 69, 70, 71, 72, 73, 74, 75, 76, 77, 78, 80]
  separator := [79]

/-- The states listed for a category. The categories of reserved words have none. -/
def states (acceptance : Acceptance) : Category → List State
  | .identifier => acceptance.identifier
  | .integerLiteral => acceptance.integerLiteral
  | .floatingPointLiteral => acceptance.floatingPointLiteral
  | .characterLiteral => acceptance.characterLiteral
  | .stringLiteral => acceptance.stringLiteral
  | .operator => acceptance.operator
  | .separator => acceptance.separator
  | .keyword | .nullLiteral | .booleanLiteral => []

/-- Lists further states for a category, behind those it has. The categories of reserved words take
none. -/
def extend (acceptance : Acceptance) (category : Category) (more : List State) : Acceptance :=
  match category with
  | .identifier => { acceptance with identifier := acceptance.identifier ++ more }
  | .integerLiteral => { acceptance with integerLiteral := acceptance.integerLiteral ++ more }
  | .floatingPointLiteral =>
    { acceptance with floatingPointLiteral := acceptance.floatingPointLiteral ++ more }
  | .characterLiteral => { acceptance with characterLiteral := acceptance.characterLiteral ++ more }
  | .stringLiteral => { acceptance with stringLiteral := acceptance.stringLiteral ++ more }
  | .operator => { acceptance with operator := acceptance.operator ++ more }
  | .separator => { acceptance with separator := acceptance.separator ++ more }
  | .keyword | .nullLiteral | .booleanLiteral => acceptance

/-- Further states are listed for their own category only, behind those it has. -/
theorem states_extend (acceptance : Acceptance) (category other : Category) (more : List State) :
    (acceptance.extend category more).states other =
      if category = other ∧ other ∈ Category.classified then acceptance.states other ++ more
      else acceptance.states other := by
  cases category <;> cases other <;> rfl

/-- The accepting states that a list of entries gives, one entry after the other. -/
def ofEntries (entries : List (Category × List State)) : Acceptance :=
  entries.foldl (fun acceptance entry => acceptance.extend entry.1 entry.2) empty

/-- The categories of the entries that `ofEntries` passes over, in order. -/
def ignoredEntries (entries : List (Category × List State)) : List Category :=
  (entries.map (·.1)).filter fun category => !Category.classified.contains category

/-- The warning about an entry that was passed over. -/
def ignoredMessage (category : Category) : String :=
  s!"{category.name} is not an automaton category; states ignored"

/-- The lists of states with their categories, in the order of the categories. -/
def sets (acceptance : Acceptance) : List (Category × List State) :=
  Category.classified.map fun category => (category, acceptance.states category)

/-- Every listed state with its category: category by category, each list in its own order. -/
def listing (acceptance : Acceptance) : List (State × Category) :=
  acceptance.sets.flatMap fun (category, states) => states.map (·, category)

/-- The listing has the states of all categories. -/
theorem mem_listing {acceptance : Acceptance} {state : State} {category : Category} :
    (state, category) ∈ acceptance.listing ↔ state ∈ acceptance.states category := by
  cases category <;> simp [listing, sets, Category.classified, states]

/-- How many rows a table needs to have one for every accepting state. -/
def bound (acceptance : Acceptance) : Nat :=
  (acceptance.listing.map fun entry => entry.1.toNat + 1).max?.getD 0

/-- The highest accepting state, if there is any. -/
def maxState? (acceptance : Acceptance) : Option State :=
  if acceptance.bound = 0 then none else some (State.ofNat (acceptance.bound - 1))

/-- There is a row for every accepting state within the bound. -/
theorem lt_bound {acceptance : Acceptance} {state : State} {category : Category}
    (h : state ∈ acceptance.states category) : state.toNat < acceptance.bound :=
  List.le_max?_getD_of_mem (List.mem_map.mpr ⟨(state, category), mem_listing.mpr h, rfl⟩)

/-- Enters a state with its category into a table by state. A state that has another category
already is an overlap. -/
def enter (table : Array (Option Category)) (entry : State × Category) :
    Except TableError (Array (Option Category)) :=
  match table.getD entry.1.toNat none with
  | some first =>
    if first = entry.2 then .ok table else .error (.overlap entry.1 first entry.2)
  | none => .ok (table.setIfInBounds entry.1.toNat (some entry.2))

/-- The category of every state of a table with the given number of rows, or the first overlap: the
first entry of the listing whose state an earlier entry has under another category. -/
def categoryTable (acceptance : Acceptance) (rows : Nat) :
    Except TableError (Array (Option Category)) :=
  acceptance.listing.foldlM enter (Array.replicate rows none)

end Acceptance

end TableLexer
