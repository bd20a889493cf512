-- SUMMARY: Thompson's construction: the nondeterministic automaton of an expression.
import LexGen.Expr.Basic
import LexGen.Nfa.Basic

/-! # Thompson's construction

Each subexpression owns an interval of states. It is entered at the first of them and left from the
last, and between the two it reads exactly the words of the subexpression. An operator places its
operands next to each other inside its own interval and connects them by silent edges. -/

namespace LexGen

namespace Expr

/-- Lays the automaton of an expression out on the states from `first` on. Answers its last state,
and its edges in front of those in `edges`. -/
def place (first : Nat) (edges : List (Edge Nat (Option Char))) :
    Expr → Nat × List (Edge Nat (Option Char))
  | .symbol c => (first + 1, ⟨first, some c, first + 1⟩ :: edges)
  | .epsilon => (first, edges)
  | .empty => (first + 1, edges)
  | .concat l r =>
    let (lastL, edges) := l.place first edges
    let (lastR, edges) := r.place (lastL + 1) edges
    (lastR, ⟨lastL, none, lastL + 1⟩ :: edges)
  | .union l r =>
    let (lastL, edges) := l.place (first + 1) edges
    let (lastR, edges) := r.place (lastL + 1) edges
    let last := lastR + 1
    (last, ⟨first, none, first + 1⟩ :: ⟨first, none, lastL + 1⟩ ::
      ⟨lastL, none, last⟩ :: ⟨lastR, none, last⟩ :: edges)
  | .star e =>
    let (inner, edges) := e.place (first + 1) edges
    let last := inner + 1
    (last, ⟨first, none, first + 1⟩ :: ⟨first, none, last⟩ ::
      ⟨inner, none, first + 1⟩ :: ⟨inner, none, last⟩ :: edges)
  | .plus e =>
    let (inner, edges) := e.place (first + 1) edges
    let last := inner + 1
    (last, ⟨first, none, first + 1⟩ ::
      ⟨inner, none, first + 1⟩ :: ⟨inner, none, last⟩ :: edges)

/-- The automaton of an expression. -/
def toNfa (e : Expr) : Nfa :=
  let (last, edges) := e.place 0 []
  Nfa.ofEdges (last + 1) edges last

end Expr

end LexGen
