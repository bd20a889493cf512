-- SUMMARY: Deterministic automata with gaps in their tables, their sinks, and the trap.
import LexGen.Graph

/-! # Deterministic automata

The states are the numbers below the size. The transition table may have gaps; reading a character
in a gap leads to the trap. A state from which no accepting state can be reached is a sink. -/

namespace LexGen

/-! ## Transitions -/

/-- A transition table with a start state and accepting states. -/
structure Automaton where
  /-- The symbols, in the order in which they are written. -/
  alphabet : List Char
  /-- The targets of each state, by the characters read. -/
  rows : Array (List (Char × Nat))
  start : Nat
  /-- In increasing order. -/
  accepting : List Nat

namespace Automaton

/-- The number of states. -/
def size (a : Automaton) : Nat :=
  a.rows.size

/-- The target of the transition from a state on a character. -/
def get? (a : Automaton) (q : Nat) (c : Char) : Option Nat :=
  (a.rows.getD q []).lookup c

/-- The transitions, by source and then in the order of the alphabet. -/
def edges (a : Automaton) : List (Edge Nat Char) :=
  (List.range a.size).flatMap fun q =>
    a.alphabet.filterMap fun c => (a.get? q c).map (⟨q, c, ·⟩)

/-- The states from which no accepting state can be reached, in increasing order. -/
def deadStates (a : Automaton) : List Nat :=
  Graph.deadEnds (List.range a.size) a.edges a.accepting

end Automaton

/-! ## Automata of token classes -/

/-- The automaton of one token class. -/
structure Dfa extends Automaton where
  /-- The name of the token class. -/
  token : String
  /-- The sinks, in increasing order. -/
  sinks : List Nat
  /-- The state that gaps of the table lead to: a sink, or the first number that is no state. -/
  trap : Nat
  /-- Whether the trap is labelled `S`; all other states are labelled with their numbers. -/
  trapLabelled : Bool

namespace Dfa

/-- The automaton of a table and a trap, with its sinks. -/
def ofAutomaton (a : Automaton) (token : String) (trap : Nat) (trapLabelled : Bool) : Dfa :=
  { a with token, trap, trapLabelled, sinks := a.deadStates }

/-- The automaton under another token name. -/
def withToken (d : Dfa) (token : String) : Dfa :=
  { d with token }

/-- The automaton with its sinks determined anew. -/
def withSinks (d : Dfa) : Dfa :=
  { d with sinks := d.deadStates }

/-- Whether a state is accepting. -/
def isAccepting (d : Dfa) (q : Nat) : Bool :=
  d.accepting.contains q

/-- Whether a state is the trap or a sink. -/
def isSink (d : Dfa) (q : Nat) : Bool :=
  q == d.trap || d.sinks.contains q

end Dfa

/-! ## Tables -/

/-- The automata of a lexer, from the highest priority to the lowest. -/
abbrev Table := List Dfa

end LexGen
