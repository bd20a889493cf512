-- SUMMARY: Splitting a text into lines, and putting lines together again.

/-! # Lines

A line ends at a newline or at the end of the text. A carriage return just before a newline belongs
to the line end; in front of the end of the text it belongs to the line. An empty rest behind the
last newline is not a line. -/

namespace LexGen.Text

/-- A line without the carriage return that it may end in. -/
def dropReturn (line : List Char) : List Char :=
  if line.getLast? = some '\r' then line.dropLast else line

/-- The lines of a text. -/
def lines (text : List Char) : List (List Char) :=
  let parts := text.splitOn '\n'
  let last := parts.getLastD []
  parts.dropLast.map dropReturn ++ if last.isEmpty then [] else [last]

/-- The text that holds the given lines, each with a newline behind it. -/
def unlines (ls : List (List Char)) : List Char :=
  ls.flatMap (· ++ ['\n'])

end LexGen.Text
