-- SUMMARY: Regular expressions over single characters, and the walk over their nodes.

/-! # Regular expressions

An expression is a tree over single-character symbols. Expressions may be nested very deeply (a
chain of operators is only as short as its text), so whatever looks at every node goes through
`preorder`, whose walk keeps the nodes still to be visited in a list. -/

namespace LexGen

/-- A regular expression. -/
inductive Expr where
  /-- The word of this one character. -/
  | symbol (c : Char)
  /-- The empty word. -/
  | epsilon
  /-- No word at all. -/
  | empty
  /-- A word of the left operand followed by one of the right. -/
  | concat (l r : Expr)
  /-- A word of either operand. -/
  | union (l r : Expr)
  /-- Any number of words of the operand, one behind the other. -/
  | star (e : Expr)
  /-- At least one word of the operand, one behind the other. -/
  | plus (e : Expr)
  deriving DecidableEq

namespace Expr

/-! ## Shape of a node -/

/-- The operands of a node, left to right. -/
def children : Expr → List Expr
  | .symbol _ | .epsilon | .empty => []
  | .star e | .plus e => [e]
  | .concat l r | .union l r => [l, r]

/-- The number of operands of a node. -/
def arity (e : Expr) : Nat :=
  e.children.length

/-- The name of a node; a symbol is named by its character. -/
def name : Expr → String
  | .symbol c => c.toString
  | .epsilon => "ε"
  | .empty => "∅"
  | .concat .. => "Concat"
  | .union .. => "Union"
  | .star _ => "Star"
  | .plus _ => "Plus"

/-! ## All nodes of a tree -/

/-- The number of nodes, by recursion on the tree. -/
def size : Expr → Nat
  | .symbol _ | .epsilon | .empty => 1
  | .star e | .plus e => e.size + 1
  | .concat l r | .union l r => l.size + r.size + 1

/-- The number of nodes of all trees in a list. -/
def sizes : List Expr → Nat
  | [] => 0
  | e :: es => e.size + sizes es

theorem sizes_append (es es' : List Expr) : sizes (es ++ es') = sizes es + sizes es' := by
  induction es with
  | nil => simp [sizes]
  | cons e es ih => simp [sizes, ih, Nat.add_assoc]

theorem sizes_children (e : Expr) : sizes e.children + 1 = e.size := by
  cases e <;> simp [children, sizes, size]

/-- The nodes of the trees in `work`, each node in front of its operands, behind the nodes in
`seen`, which are listed last to first. -/
def nodesOnto (seen : List Expr) : (work : List Expr) → List Expr
  | [] => seen.reverse
  | e :: work => nodesOnto (e :: seen) (e.children ++ work)
termination_by work => sizes work
decreasing_by
  have := sizes_children e
  rw [sizes_append, sizes]
  omega

/-- The nodes of a tree, each in front of its operands. -/
def preorder (e : Expr) : List Expr :=
  nodesOnto [] [e]

/-- The number of nodes of a tree. -/
def nodeCount (e : Expr) : Nat :=
  e.preorder.length

end Expr

end LexGen
