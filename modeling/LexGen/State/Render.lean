-- SUMMARY: The displayed form of a state, and a form that tells states apart that are displayed alike.
import LexGen.State.Basic
import LexGen.Text.Quoted

/-! # Written forms of states

`display` shows a label as it is, and a set as its members between braces. `describe` quotes the
labels and also shows an ordinal that is not the number of its label. -/

namespace LexGen.State

/-- A list between braces. -/
def braces (items : List String) : String :=
  "\x7b" ++ ", ".intercalate items ++ "\x7d"

/-- The displayed form of a state, such as `3` or `{0, 1, S}`. -/
def display : State → String
  | .simple label _ => label
  | .composed members => braces (members.map display)

/-- An ordinal that may be missing. -/
def describeOrdinal : Option Nat → String
  | some n => s!"Some({n})"
  | none => "None"

/-- The full description of a state, such as `State("3")` or `{State("0"), State("1")}`. -/
def describe : State → String
  | .simple label ordinal =>
    if ordinal = labelNumber? label then "State(" ++ Text.Quoted.text label ++ ")"
    else
      "State \x7b label: " ++ Text.Quoted.text label ++
        ", ordinal: " ++ describeOrdinal ordinal ++ " \x7d"
  | .composed members => braces (members.map describe)

end LexGen.State
