-- SUMMARY: The names of the states of a deterministic automaton, and its operations by name.
import LexGen.Dfa.Run
import LexGen.State.Basic

/-! # Named states of a deterministic automaton

A state is labelled with its number, except for a trap labelled `S`. That trap has an ordinal if it
belongs to the automaton. Any other name is the name of no state: it has no transitions, is neither
accepting nor a sink, and a run may still start from it. -/

namespace LexGen.Dfa

/-- The name of a state. -/
def stateAt (d : Dfa) (q : Nat) : State :=
  if d.trapLabelled && q == d.trap then
    if q < d.size then .sink q else .ofLabel State.sinkLabel
  else .numbered q

/-- The number of the state with the given name. -/
def find? (d : Dfa) (s : State) : Option Nat :=
  if d.trapLabelled && s == d.stateAt d.trap then some d.trap
  else s.index?.filter fun q => q < d.size && !(d.trapLabelled && q == d.trap)

/-- The target of the transition from the named state on a character. -/
def getNamed? (d : Dfa) (s : State) (c : Char) : Option State :=
  ((d.find? s).bind (d.get? · c)).map d.stateAt

/-- Whether the name is that of the trap or of a sink. -/
def isSinkNamed (d : Dfa) (s : State) : Bool :=
  (d.find? s).any d.isSink

/-- Whether the name is that of an accepting state. -/
def isAcceptingNamed (d : Dfa) (s : State) : Bool :=
  (d.find? s).any d.isAccepting

/-- Reads one character, starting from the named state. -/
def stepNamed (d : Dfa) (s : State) : List Char → State × List Char
  | [] => (s, [])
  | c :: rest =>
    match d.getNamed? s c with
    | some t => (t, rest)
    | none => (d.stateAt d.trap, [])

end LexGen.Dfa
