import TableLexer.Automaton.Draft
import TableLexer.Rule.File

/-!
# Automata from rule text

The text of a rule file, together with accepting states, gives an automaton. Faulty lines are told
before faults of the table, and a file that cannot be read before both.
-/

namespace TableLexer

/-- Why a rule text gives no automaton. -/
inductive BuildError where
  /-- A line is faulty. -/
  | rule (e : RuleError)
  /-- The table of the rules is wrong. -/
  | table (e : TableError)
  deriving DecidableEq, Repr

/-- The text of a failure to build. -/
def BuildError.message : BuildError → String
  | .rule e => e.message
  | .table e => e.message

/-- Why a rule file gives no automaton. -/
inductive FileError where
  /-- The file is missing, or its bytes are no text. -/
  | unreadable (path : String)
  /-- The text of the file gives no automaton. -/
  | invalid (path : String) (cause : BuildError)
  deriving DecidableEq, Repr

/-- The text of a failure to load a file. -/
def FileError.message : FileError → String
  | .unreadable path => s!"read rule file {path}"
  | .invalid path cause => s!"build automaton from {path}: {cause.message}"

namespace Automaton

/-- The automaton of a rule text. -/
def ofText (text : String) (acceptance : Acceptance) : Except BuildError Automaton := do
  let rules ← (RuleFile.read text).rules.mapError .rule
  (ofRules rules acceptance).mapError .table

/-- A rule text gives the automaton of its rules, if all of its lines can be read. -/
theorem ofText_eq_ok_iff {text : String} {acceptance : Acceptance} {a : Automaton} :
    ofText text acceptance = .ok a ↔
      ∃ rules, (RuleFile.read text).rules = .ok rules ∧ ofRules rules acceptance = .ok a := by
  unfold ofText
  cases hrules : (RuleFile.read text).rules.mapError BuildError.rule with
  | error e =>
    constructor
    · intro h
      cases h
    · rintro ⟨rules, hread, -⟩
      rw [mapError_eq_ok_iff.mpr hread] at hrules
      cases hrules
  | ok rules =>
    have hread := mapError_eq_ok_iff.mp hrules
    simp only [bind, Except.bind, mapError_eq_ok_iff]
    constructor
    · intro hbuild
      exact ⟨rules, hread, hbuild⟩
    · rintro ⟨rules', hread', hbuild⟩
      obtain rfl := Except.ok.inj (hread.symm.trans hread')
      exact hbuild

/-- The automaton of a rule file with the given content, which a missing file does not have. -/
def ofFile (path : String) (content : Option (List UInt8)) (acceptance : Acceptance) :
    Except FileError Automaton :=
  match content.bind fun bytes => String.fromUTF8? bytes.toByteArray with
  | none => .error (.unreadable path)
  | some text => (ofText text acceptance).mapError (.invalid path)

end Automaton

end TableLexer
