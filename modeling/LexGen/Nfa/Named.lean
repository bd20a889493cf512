-- SUMMARY: Looking states of a nondeterministic automaton up by their names.
import LexGen.Nfa.Basic
import LexGen.State.Basic

/-! # Named states of a nondeterministic automaton

Every state is labelled with its number. Any other name is the name of no state; it has no edges,
and its closure is just itself. -/

namespace LexGen.Nfa

/-- The number of the state with the given name. -/
def find? (m : Nfa) (s : State) : Option Nat :=
  s.index?.filter (· < m.size)

/-- Whether the name is that of the final state. -/
def isFinalNamed (m : Nfa) (s : State) : Bool :=
  m.find? s == some m.final

/-- The edges out of the named state, if there are any. -/
def nodeNamed? (m : Nfa) (s : State) : Option Node :=
  ((m.find? s).map m.node).filter fun node => !node.silent.isEmpty || !node.moves.isEmpty

/-- The closure of the named state. -/
def closureNamed (m : Nfa) (s : State) : List State :=
  match m.find? s with
  | some q => (m.closure [q]).map .numbered
  | none => [s]

end LexGen.Nfa
