import LexGen.Text.Blank
import LexGen.Text.Lines
import LexGen.Text.Numeral
import LexGen.Text.Escape
import LexGen.Text.Quoted
import LexGen.Expr.Parser
import LexGen.Expr.Render
import LexGen.Nfa.Thompson
import LexGen.State.Composed
import LexGen.State.Render
import LexGen.Dfa.Run
import LexGen.Nfa.Subsets
import LexGen.Csv
import LexGen.Table.Reader
import LexGen.Lexer
import LexGen.Session
import LexGen.Main
import LexGen.Proofs.Nfa.Path
import LexGen.Proofs.Expr.Language
import LexGen.Proofs.Nfa.Thompson
import LexGen.Proofs.Lists
import LexGen.Proofs.Nfa.Subsets
import LexGen.Proofs.Dfa.Live
import LexGen.Proofs.Dfa.Longest
import LexGen.Proofs.Table.Reader
import LexGen.Proofs.Dfa.Public
import LexGen.Proofs.Expr.Parser
import LexGen.Proofs.Table.RoundTrip
import LexGen.Proofs.Expr.Listing
import LexGen.Proofs.Expr.Errors
import LexGen.Proofs.Expr.PrefixForm
import LexGen.Proofs.Dfa.Sinks
import LexGen.Proofs.Lexer.Longest
import LexGen.Proofs.Lexer.Run
import LexGen.Proofs.Table.LineEnds
import LexGen.Proofs.Table.Spelling
import LexGen.Proofs.Table.Grammar
import LexGen.Proofs.Table.NormalForm
import LexGen.Proofs.Table.Joining
import LexGen.Proofs.Table.Faults
import LexGen.Proofs.Table.Refusal
import LexGen.Proofs.Table.Location
import LexGen.Proofs.Assertions.Parts
import LexGen.Proofs.Assertions.Reading
import LexGen.Proofs.Assertions.Layout
import LexGen.Proofs.Assertions.Emission
import LexGen.Proofs.Assertions.Closures
import LexGen.Proofs.Assertions.Exploration
import LexGen.Proofs.Assertions.Determinization
import LexGen.Proofs.State.Order
import LexGen.Proofs.State.Composed
import LexGen.Proofs.Lexer.Order
import LexGen.Proofs.Cli.Lex
import LexGen.Proofs.Csv
import LexGen.Proofs.Nfa.Diagram
import LexGen.Proofs.State.Names
import LexGen.Proofs.State.DeadEnds
import LexGen.Proofs.Nfa.Closures
import LexGen.Proofs.Dfa.Total
import LexGen.Proofs.Dfa.Recorded
import LexGen.Proofs.Dfa.Transitions
import LexGen.Proofs.Nfa.Numbering
import LexGen.Proofs.Table.WrittenForm
import LexGen.Proofs.Expr.InfixForm
import LexGen.Proofs.Assertions.Turns
import LexGen.Proofs.Assertions.Traversal
import LexGen.Proofs.Session
