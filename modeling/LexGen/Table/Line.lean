-- SUMMARY: Reading the single lines of a table entry.
import LexGen.Graph
import LexGen.Table.Error
import LexGen.Text.Blank
import LexGen.Text.Escape
import LexGen.Text.Numeral
import LexGen.Text.Split

/-! # Lines of a table

Each line of an entry is read by itself, given the number of states once it is known. A line with
several faults has the fault of its first faulty part. -/

namespace LexGen

/-! ## Header lines -/

/-- The symbols of a text in which newlines and backslashes are escaped. -/
def readSymbols (text : List Char) : Except Table.Fault (List Char) :=
  match Text.Escape.decode text with
  | some symbols => .ok symbols
  | none => .error (.badSymbol (String.ofList text))

/-- A number with blanks around it. -/
def readNumber (text : List Char) : Except Table.Fault Nat :=
  match Text.Numeral.read? (Text.trim text) with
  | some n => .ok n
  | none => .error (.badNumber (String.ofList text))

/-- The ordinal of one of `count` states. -/
def readOrdinal (count : Nat) (text : List Char) : Except Table.Fault Nat := do
  let ordinal ← readNumber text
  if ordinal < count then return ordinal else throw (.outOfRange ordinal count)

/-- The token name of an entry. -/
def readToken (line : List Char) : Except Table.Fault String :=
  match Text.Escape.decode line with
  | some token => .ok (String.ofList token)
  | none => .error (.badToken (String.ofList line))

/-- The alphabet of an entry; of equal symbols the first one counts. -/
def readAlphabet (line : List Char) : Except Table.Fault (List Char) :=
  return (← readSymbols line).eraseDups

/-- The ordinals in a line, separated by blanks. -/
def readOrdinals (count : Nat) (line : List Char) : Except Table.Fault (List Nat) :=
  (Text.words line).mapM (readOrdinal count)

/-! ## Transition lines -/

/-- The part of a text between the single quotes that it starts and ends with. -/
def unquote? : List Char → Option (List Char)
  | '\'' :: rest => if rest.getLast? = some '\'' then some rest.dropLast else none
  | _ => none

/-- The symbol of a transition; a backslash by itself stands for itself. -/
def readSymbol (text : List Char) : Except Table.Fault Char := do
  if text = ['\\'] then return '\\'
  match ← readSymbols text with
  | [c] => return c
  | _ => throw (.badSymbol (String.ofList text))

/-- The three fields of a transition line, cut at the first and at the last comma. -/
def edgeFields? (line : List Char) : Option (List Char × List Char × List Char) := do
  let (source, rest) ← Text.splitFirst? ',' line
  let (label, target) ← Text.splitLast? ',' rest
  return (source, ← unquote? label, target)

/-- The transition in a line. -/
def readEdge (count : Nat) (line : List Char) : Except Table.Fault (Edge Nat Char) := do
  let some (source, label, target) := edgeFields? line
    | throw (.badTransition (String.ofList line))
  let source ← readOrdinal count source
  let label ← readSymbol label
  let target ← readOrdinal count target
  return ⟨source, label, target⟩

/-- The transition in a line, if it can join those in `edges`. -/
def readNewEdge (alphabet : List Char) (count : Nat) (edges : List (Edge Nat Char))
    (line : List Char) : Except Table.Fault (Edge Nat Char) := do
  let e ← readEdge count line
  if !alphabet.contains e.label then
    throw (.unknownSymbol e.label)
  if edges.any fun e' => e'.source == e.source && e'.label == e.label then
    throw (.conflict e.source e.label)
  return e

end LexGen
