-- SUMMARY: Labelled edges, depth-first walks, and the nodes from which no goal can be reached.

/-! # Walks over graphs

A graph is given by the function that lists the successors of a node. A walk keeps the nodes that it
has not visited yet, so it ends although the graph may have cycles, and it visits no node twice. -/

namespace LexGen

/-- An edge of a labelled graph. -/
structure Edge (σ : Type) (ℓ : Type) where
  source : σ
  label : ℓ
  target : σ
  deriving DecidableEq

namespace Graph

variable {σ ℓ : Type} [BEq σ]

/-! ## Depth-first walks -/

/-- The nodes other than `q`. -/
def without (q : σ) (nodes : List σ) : List σ :=
  nodes.filter (!· == q)

theorem length_without_lt {q : σ} {nodes : List σ} (h : nodes.any (· == q)) :
    (without q nodes).length < nodes.length := by
  rw [without, List.length_filter_lt_length_iff_exists]
  simpa using h

/-- The nodes of `fresh` that a depth-first walk from the nodes in `work` meets, in the order of its
visits. -/
def walk (next : σ → List σ) (fresh : List σ) : (work : List σ) → List σ
  | [] => []
  | q :: work =>
    if fresh.any (· == q) then q :: walk next (without q fresh) (next q ++ work)
    else walk next fresh work
termination_by work => (fresh.length, work.length)
decreasing_by
  · exact Prod.Lex.left _ _ (length_without_lt ‹_›)
  · exact Prod.Lex.right _ (by simp)

/-! ## Dead ends -/

/-- The sources of the edges into `q`. -/
def sources (edges : List (Edge σ ℓ)) (q : σ) : List σ :=
  (edges.filter (·.target == q)).map (·.source)

/-- The nodes from which a path of `edges`, possibly without any edge, leads to a goal. -/
def leadingTo (edges : List (Edge σ ℓ)) (goals : List σ) : List σ :=
  walk (sources edges) (goals ++ edges.map (·.source)) goals

/-- The members of `nodes` from which no path of `edges` leads to a goal. -/
def deadEnds (nodes : List σ) (edges : List (Edge σ ℓ)) (goals : List σ) : List σ :=
  let live := leadingTo edges goals
  nodes.filter (!live.contains ·)

end Graph

end LexGen
