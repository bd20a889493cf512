-- SUMMARY: Quoting of texts and characters inside messages.
import LexGen.Text.Unprintable

/-! # Quoted texts

Messages show a text between double quotes, a character between single quotes and a list of texts
between brackets. Inside, `\0`, `\t`, `\r`, `\n`, `\\` and the quote in use are written with a
backslash, and an unprintable character by its code point in lowercase hexadecimal. -/

namespace LexGen.Text.Quoted

/-- A character by its code point, such as `\u{e9}` for `é`. -/
def codePoint (c : Char) : List Char :=
  ['\\', 'u', '{'] ++ Nat.toDigits 16 c.toNat ++ ['}']

/-- The form of `c` between two characters `quote`. -/
def encodeChar (quote c : Char) : List Char :=
  if c = '\x00' then ['\\', '0']
  else if c = '\t' then ['\\', 't']
  else if c = '\r' then ['\\', 'r']
  else if c = '\n' then ['\\', 'n']
  else if c = '\\' || c = quote then ['\\', c]
  else if isUnprintable c then codePoint c
  else [c]

/-- A text between double quotes. -/
def text (s : String) : String :=
  String.ofList ('"' :: s.toList.flatMap (encodeChar '"') ++ ['"'])

/-- A character between single quotes. -/
def char (c : Char) : String :=
  String.ofList ('\'' :: encodeChar '\'' c ++ ['\''])

/-- A list of quoted texts between brackets. -/
def texts (ss : List String) : String :=
  "[" ++ ", ".intercalate (ss.map text) ++ "]"

end LexGen.Text.Quoted
