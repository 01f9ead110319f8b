import TableLexer.Consumer.Listing
import TableLexer.Consumer.Recorder
import TableLexer.Document.Automaton
import TableLexer.Document.Token
import TableLexer.MiniJava
import TableLexer.Proofs.Acceptance.Overlap
import TableLexer.Proofs.Automaton.Faults
import TableLexer.Proofs.Automaton.Rebuilding
import TableLexer.Proofs.Automaton.Size
import TableLexer.Proofs.Automaton.Views
import TableLexer.Proofs.Automaton.WellFormed
import TableLexer.Proofs.Consumer.Agreement
import TableLexer.Proofs.Consumer.Calls
import TableLexer.Proofs.Consumer.Listing
import TableLexer.Proofs.Consumer.Page
import TableLexer.Proofs.Consumer.Resumption
import TableLexer.Proofs.Consumer.Termination
import TableLexer.Proofs.Document.Presentation
import TableLexer.Proofs.Document.RoundTrip
import TableLexer.Proofs.Json.Exactness
import TableLexer.Proofs.Json.Grammar
import TableLexer.Proofs.Json.Printing
import TableLexer.Proofs.Json.Reading
import TableLexer.Proofs.Json.Record
import TableLexer.Proofs.Lexicon.Inverse
import TableLexer.Proofs.Lexicon.Numbering
import TableLexer.Proofs.MiniJava.Languages
import TableLexer.Proofs.MiniJava.Phases
import TableLexer.Proofs.Rule.Exclusion
import TableLexer.Proofs.Rule.Grammar
import TableLexer.Proofs.Rule.History
import TableLexer.Proofs.Rule.Interleaving
import TableLexer.Proofs.Rule.Layout
import TableLexer.Proofs.Rule.Lines
import TableLexer.Proofs.Rule.Reading
import TableLexer.Proofs.Rule.Rows
import TableLexer.Proofs.Scanner.Bisimulation
import TableLexer.Proofs.Scanner.Coverage
import TableLexer.Proofs.Scanner.Lexemes
import TableLexer.Proofs.Scanner.Lifecycle
import TableLexer.Proofs.Scanner.Remainder
import TableLexer.Proofs.Scanner.Separation
import TableLexer.Proofs.Scanner.Verdict
import TableLexer.Proofs.Scanner.Words
