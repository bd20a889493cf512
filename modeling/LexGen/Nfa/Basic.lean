-- SUMMARY: Nondeterministic automata with silent edges: closures and simulation.
import LexGen.Graph

/-! # Nondeterministic automata

The states are the numbers below the size, the start state is `0`, and there is one final state. An
edge reads a character or, when it is silent, nothing. Sets of states are increasing lists, so equal
sets are equal lists. -/

namespace LexGen

/-- The edges out of one state. -/
structure Node where
  /-- The targets of the silent edges. -/
  silent : List Nat := []
  /-- The other edges, by their characters and targets. -/
  moves : List (Char × Nat) := []

/-- A nondeterministic automaton. -/
structure Nfa where
  nodes : Array Node
  final : Nat

namespace Nfa

/-! ## Building -/

/-- Puts an edge in front of the others of its kind. -/
def addEdge (nodes : Array Node) (e : Edge Nat (Option Char)) : Array Node :=
  nodes.modify e.source fun node =>
    match e.label with
    | none => { node with silent := e.target :: node.silent }
    | some c => { node with moves := (c, e.target) :: node.moves }

/-- The automaton with `size` states and the given edges; edges out of one state keep their order. -/
def ofEdges (size : Nat) (edges : List (Edge Nat (Option Char))) (final : Nat) : Nfa where
  nodes := edges.foldr (fun e nodes => addEdge nodes e) (Array.replicate size {})
  final := final

/-! ## States and edges -/

/-- The number of states. -/
def size (m : Nfa) : Nat :=
  m.nodes.size

/-- The edges out of a state; a number that is no state has none. -/
def node (m : Nfa) (q : Nat) : Node :=
  m.nodes.getD q {}

/-- The targets of the silent edges out of a state. -/
def silent (m : Nfa) (q : Nat) : List Nat :=
  (m.node q).silent

/-- The targets of the edges out of a state that read `c`. -/
def targets (m : Nfa) (q : Nat) (c : Char) : List Nat :=
  ((m.node q).moves.filter (·.1 == c)).map (·.2)

/-- The edges by source, the silent ones of a source first. -/
def edges (m : Nfa) : List (Edge Nat (Option Char)) :=
  (List.range m.size).flatMap fun q =>
    (m.silent q).map (⟨q, none, ·⟩) ++ (m.node q).moves.map fun (c, p) => ⟨q, some c, p⟩

/-- The characters of the edges, in increasing order. -/
def alphabet (m : Nfa) : List Char :=
  ((m.nodes.toList.flatMap (·.moves.map (·.1))).mergeSort (· ≤ ·)).eraseDups

/-! ## Closures -/

/-- The states that some number of silent edges, possibly none, leads to from a state in `qs`. -/
def closure (m : Nfa) (qs : List Nat) : List Nat :=
  let met := Graph.walk m.silent (List.range m.size) qs
  (List.range m.size).filter met.contains

/-- The closure of one state, without the state itself. -/
def properClosure (m : Nfa) (q : Nat) : List Nat :=
  (m.closure [q]).filter (· ≠ q)

/-! ## Simulation -/

/-- The states in which the automaton may be before it has read anything. -/
def initial (m : Nfa) : List Nat :=
  m.closure [0]

/-- The states that an edge reading `c`, followed by silent ones, leads to from a state in `qs`. -/
def stepSet (m : Nfa) (qs : List Nat) (c : Char) : List Nat :=
  m.closure (qs.flatMap (m.targets · c))

/-- Whether a set of states holds the final one. -/
def isFinal (m : Nfa) (qs : List Nat) : Bool :=
  qs.contains m.final

/-- Whether the automaton can be in its final state when it has read `word`. -/
def accept (m : Nfa) (word : List Char) : Bool :=
  m.isFinal (word.foldl m.stepSet m.initial)

end Nfa

end LexGen
