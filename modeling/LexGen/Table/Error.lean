-- SUMMARY: What can be wrong with the text of a table, and where.
import LexGen.Text.Quoted

/-! # Errors in tables -/

namespace LexGen

/-- What is wrong with a line of a table. -/
inductive Table.Fault where
  /-- The text ends where this should follow. -/
  | truncated (expected : String)
  /-- Not a numeral. -/
  | badNumber (text : String)
  /-- An ordinal that is not below the number of states. -/
  | outOfRange (ordinal count : Nat)
  /-- Not three fields, or no quotes around the second. -/
  | badTransition (line : String)
  /-- Not the written form of the symbols that should stand here. -/
  | badSymbol (text : String)
  /-- A transition on a symbol that is not in the alphabet. -/
  | unknownSymbol (c : Char)
  /-- A second transition from a state on the same symbol. -/
  | conflict (state : Nat) (c : Char)
  /-- A token name with a malformed escape. -/
  | badToken (line : String)
  /-- More states than a start state, a sink and the targets of the transitions. -/
  | tooManyStates (count max : Nat)
  deriving DecidableEq

/-- The wording of a fault. -/
def Table.Fault.message : Table.Fault → String
  | .truncated expected => s!"Unexpected end of input, expected {expected}"
  | .badNumber text => "Invalid number " ++ Text.Quoted.text text
  | .outOfRange ordinal count => s!"State {ordinal} is out of range for {count} states"
  | .badTransition line =>
    "Malformed transition " ++ Text.Quoted.text line ++ ", expected <src>,'<symbol>',<dst>"
  | .badSymbol text => "Invalid symbol " ++ Text.Quoted.text text
  | .unknownSymbol c => "Symbol " ++ Text.Quoted.char c ++ " is not in the alphabet"
  | .conflict state c => s!"State {state} already has a transition on " ++ Text.Quoted.char c
  | .badToken line => "Invalid token name " ++ Text.Quoted.text line
  | .tooManyStates count max =>
    s!"State count {count} exceeds {max}, the most the transitions can account for"

/-- A fault and the number of its line, counted from one. -/
structure Table.Error where
  line : Nat
  fault : Table.Fault
  deriving DecidableEq

/-- The wording of an error. -/
def Table.Error.message (e : Table.Error) : String :=
  s!"Error on line {e.line}: " ++ e.fault.message

end LexGen
