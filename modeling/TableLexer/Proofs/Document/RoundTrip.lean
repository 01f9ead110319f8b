import TableLexer.Document.Automaton
import TableLexer.Proofs.Json.Printing
import TableLexer.Proofs.Json.Reading
import TableLexer.Proofs.Json.Record

/-!
# Automata read back

What is written for an automaton is read back as the automaton. A document holds the rows and the
accepting states only: the padding, the check of the edges and the categories of the states are done
again, and the invariants of the automaton see to it that they give what it had.
-/

namespace TableLexer

/-! ### Accepting states -/

/-- The lists of accepting states, category by category, give the accepting states. -/
theorem Acceptance.ofEntries_states (acceptance : Acceptance) :
    ofEntries (Category.classified.zip (Category.classified.map acceptance.states)) =
      acceptance := by
  cases acceptance
  rfl

/-- The value of accepting states has the list of every category. -/
theorem Acceptance.record?_toJson (acceptance : Acceptance) :
    acceptance.toJson.record? (Category.classified.map Category.field) =
      some (Category.classified.map fun category =>
        some (.ofWords (acceptance.states category))) := by
  have hdistinct : (Category.classified.map Category.field).Nodup := by decide
  exact Json.record?_ofRecord (by simp [sets]) hdistinct

/-- The value of accepting states is read back as the accepting states. -/
theorem Acceptance.ofJson?_toJson (acceptance : Acceptance) :
    ofJson? acceptance.toJson = some acceptance := by
  rw [ofJson?, record?_toJson, Option.bind_eq_bind, Option.bind_some,
    Json.Value.mapM_map_eq_some (k := acceptance.states), Option.bind_eq_bind, Option.bind_some,
    ofEntries_states]
  · rfl
  · exact fun category => Json.Value.words?_ofWords (acceptance.states category)

namespace Automaton

/-- The rows of an automaton pass all checks and need no padding. -/
theorem ofTable_self (a : Automaton) : ofTable a.table a.acceptance = .ok a := by
  have hpad : a.table.pad a.acceptance.bound = a.table := Table.pad_of_le a.bound_le
  have hbuilds : ∃ b, ofTable a.table a.acceptance = .ok b := by
    rw [exists_ofTable_iff, hpad]
    exact ⟨Table.strayEdge?_eq_none_of_target_lt a.target_lt, a.categories, a.categories_eq⟩
  obtain ⟨b, hbuilt⟩ := hbuilds
  obtain ⟨htable, hacceptance⟩ := eq_of_ofTable hbuilt
  rw [hpad] at htable
  rw [hbuilt, eq_of_table_eq htable hacceptance]

/-- The value of an automaton is read back as its rows and its accepting states. -/
theorem tableOfJson?_toJson (a : Automaton) :
    tableOfJson? a.toJson = some (a.table.toList, a.acceptance) := by
  have hrecord : a.toJson.record? ["rows", "finals"] =
      some [some (.array (a.table.toList.map Row.toJson)), some a.acceptance.toJson] :=
    Json.record?_ofRecord rfl (by decide)
  have hrows := Json.Value.mapM_map_eq_some Row.ofJson?_toJson a.table.toList
  rw [List.map_id'] at hrows
  rw [tableOfJson?, hrecord]
  simp only [Option.bind_eq_bind, Option.bind_some, hrows, Acceptance.ofJson?_toJson]
  rfl

/-- The document of an automaton spells its value. -/
theorem spells_document (a : Automaton) : Json.Spells a.toJson a.document := by
  have hrows : Json.Spells (.array (a.table.toList.map Row.toJson))
      (Json.Value.array (a.table.toList.map Row.toJson)).render := by
    refine Json.spells_array fun item hitem => ?_
    obtain ⟨row, -, rfl⟩ := List.mem_map.mp hitem
    exact Json.spells_ofWords row.cells.toList
  have hacceptance : Json.Spells a.acceptance.toJson a.acceptance.toJson.render := by
    refine Json.spells_ofRecord fun field hfield => ?_
    obtain ⟨⟨category, states⟩, -, rfl⟩ := List.mem_map.mp hfield
    exact Json.spells_ofWords states
  refine Json.spells_ofRecord fun field hfield => ?_
  simp only [List.mem_cons, List.not_mem_nil, or_false] at hfield
  rcases hfield with rfl | rfl
  · exact hrows
  · exact hacceptance

/-- The document of an automaton is read as its value. -/
theorem read?_document (a : Automaton) : Json.read? a.document = some a.toJson := by
  have hread := Json.read?_of_spells Json.blank_nil a.spells_document Json.blank_nil
  rwa [List.nil_append, List.append_nil] at hread

/-- What is saved of an automaton is loaded as the same automaton. So whatever a document looks
like, once it is loaded, it is saved as a document that is loaded as the same. -/
theorem ofDocument_save :
    (∀ a : Automaton, ∃ document, a.save (.ok ()) = .ok document ∧
      Automaton.ofDocument document = .ok a) ∧
    ∀ (given : List UInt8) (a : Automaton), Automaton.ofDocument given = .ok a →
      ∃ document, a.save (.ok ()) = .ok document ∧ Automaton.ofDocument document = .ok a := by
  have hsaved : ∀ a : Automaton, ∃ document, a.save (.ok ()) = .ok document ∧
      Automaton.ofDocument document = .ok a := by
    intro a
    refine ⟨a.document, rfl, ofDocument_eq_ok_iff.mpr ⟨a.table.toList, a.acceptance, ?_, ?_⟩⟩
    · rw [read?_document, Option.bind_some, tableOfJson?_toJson]
    · exact ofTable_self a
  exact ⟨hsaved, fun _ a _ => hsaved a⟩

/-- A document with blank bytes, a member that is none of an automaton's, accepting states as a list
that breaks off after the first category and repeats a state, and not a single row. -/
def looseDocument : List UInt8 :=
  Json.ascii "\x7b \"note\": null,\n  \"finals\": [[0, 0]], \"rows\": [] \x7d"

/-- The loose document gives an automaton with one row, which is loaded again once it is saved. -/
theorem ofDocument_save_loose : ∃ a, Automaton.ofDocument looseDocument = .ok a ∧ a.size = 1 ∧
    ∃ document, a.save (.ok ()) = .ok document ∧ Automaton.ofDocument document = .ok a := by
  have hloaded : (Automaton.ofDocument looseDocument).toOption.map size = some 1 := by
    decide +kernel
  obtain ⟨a, hok, hsize⟩ := Option.map_eq_some_iff.mp hloaded
  cases hgiven : Automaton.ofDocument looseDocument with
  | error e => simp [hgiven, Except.toOption] at hok
  | ok b =>
    obtain rfl : b = a := by simpa [hgiven, Except.toOption] using hok
    exact ⟨b, rfl, hsize, ofDocument_save.2 looseDocument b hgiven⟩

end Automaton

end TableLexer
