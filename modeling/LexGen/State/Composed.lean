-- SUMMARY: Sets of states as increasing lists, and the state composed of such a set.
import LexGen.State.Basic

/-! # Composed states

A set of states is an increasing list. A state put into a set takes the place of an equal one, so of
equal states that differ in their ordinals the set holds the last one put in. -/

namespace LexGen.State

/-- Puts a state into a set. -/
def insert (s : State) : List State → List State
  | [] => [s]
  | t :: rest =>
    match s.cmp t with
    | .lt => s :: t :: rest
    | .eq => s :: rest
    | .gt => t :: insert s rest

/-- The set of the given states. -/
def setOf (states : List State) : List State :=
  states.foldl (fun set s => insert s set) []

/-- The state composed of the given ones; there must be at least one. -/
def compose? (states : List State) : Option State :=
  if states.isEmpty then none else some (.composed (setOf states))

end LexGen.State
