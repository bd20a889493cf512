-- SUMMARY: Listings of the edges of automata as comma-separated values.
import LexGen.Dfa.Named
import LexGen.Nfa.Named
import LexGen.State.Render
import LexGen.Text.Escape

/-! # Edge listings

A listing has a header line and one line for each edge: its source, the character it reads (`ε` for
a silent edge) and its target, with an `f` in front of an accepting target. -/

namespace LexGen

/-- One line of a listing. -/
structure CsvRow where
  source : State
  label : Option Char
  target : State
  accepting : Bool

namespace CsvRow

/-- The written form of the character of an edge. -/
def labelText : Option Char → List Char
  | some c => Text.Escape.encodeChar c
  | none => ['ε']

/-- The line of a row, with its newline. -/
def text (row : CsvRow) : List Char :=
  row.source.display.toList ++ [','] ++ labelText row.label ++ [','] ++
    (if row.accepting then ['f'] else []) ++ row.target.display.toList ++ ['\n']

/-- The listing of the given rows. -/
def render (rows : List CsvRow) : String :=
  "from,char,to\n" ++ String.ofList (rows.flatMap text)

end CsvRow

/-- The rows of the edges of a nondeterministic automaton. -/
def Nfa.csvRows (m : Nfa) : List CsvRow :=
  m.edges.map fun e => ⟨.numbered e.source, e.label, .numbered e.target, e.target == m.final⟩

/-- The rows of the transitions of a deterministic automaton. -/
def Dfa.csvRows (d : Dfa) : List CsvRow :=
  d.edges.map fun e => ⟨d.stateAt e.source, some e.label, d.stateAt e.target, d.isAccepting e.target⟩

end LexGen
