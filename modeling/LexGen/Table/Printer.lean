-- SUMMARY: The written form of an automaton and of a table of automata.
import LexGen.Dfa.Basic
import LexGen.Text.Escape
import LexGen.Text.Lines
import LexGen.Text.Numeral

/-! # Writing tables

The block of an automaton has one line each for the alphabet, the number of states, the start state
and the accepting states, and then a line `p,'c',q` for each transition. In a table a line with the
token name stands in front of each block, and an empty line between two entries. States are written
as their ordinals, and newlines and backslashes are escaped. -/

namespace LexGen

namespace Dfa

/-- The line of a transition. -/
def edgeLine (e : Edge Nat Char) : List Char :=
  Text.Numeral.write e.source ++ [',', '\''] ++ Text.Escape.encodeChar e.label ++ ['\'', ','] ++
    Text.Numeral.write e.target

/-- The lines of the block of an automaton. -/
def blockLines (d : Dfa) : List (List Char) :=
  [Text.Escape.encode d.alphabet,
   Text.Numeral.write d.size,
   Text.Numeral.write d.start,
   [' '].intercalate (d.accepting.map Text.Numeral.write)] ++
    d.edges.map edgeLine

/-- The block of an automaton. -/
def render (d : Dfa) : String :=
  String.ofList (Text.unlines d.blockLines)

/-- The lines of the table entry of an automaton. -/
def entryLines (d : Dfa) : List (List Char) :=
  Text.Escape.encode d.token.toList :: d.blockLines

end Dfa

/-- The lines of a table. -/
def Table.lines (table : Table) : List (List Char) :=
  [[]].intercalate (table.map Dfa.entryLines)

/-- The text of a table. -/
def Table.render (table : Table) : String :=
  String.ofList (Text.unlines table.lines)

end LexGen
