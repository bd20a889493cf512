-- SUMMARY: Writing a text on one line: newlines and backslashes as two-character escapes.

/-! # Escapes

A newline is written `\n` and a backslash `\\`; every other character stands for itself. So an
escaped text has no newline, and a backslash in it always starts an escape. -/

namespace LexGen.Text.Escape

/-- The written form of one character. -/
def encodeChar (c : Char) : List Char :=
  if c = '\n' then ['\\', 'n']
  else if c = '\\' then ['\\', '\\']
  else [c]

/-- The written form of a text. -/
def encode (text : List Char) : List Char :=
  text.flatMap encodeChar

/-- The text of a written form; none if a backslash does not start an escape. -/
def decode : List Char → Option (List Char)
  | [] => some []
  | '\\' :: 'n' :: rest => (decode rest).map ('\n' :: ·)
  | '\\' :: '\\' :: rest => (decode rest).map ('\\' :: ·)
  | '\\' :: _ => none
  | c :: rest => (decode rest).map (c :: ·)

end LexGen.Text.Escape
