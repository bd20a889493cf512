-- SUMMARY: Automata with the labels of their states: the construction that shifts the labels of operands, and its agreement with the one from slots.
import Mathlib
import LexGen.Proofs.Assertions.Emission

/-! # Labelled construction

The automaton of an expression can be put together from those of its operands: each of them has its
states labelled from `0` on, an operator shifts the labels of its operands apart and connects them by
silent edges. The construction from slots shifts nothing. It gives every node its block of states
first, and all edges have their final labels when they are added; the automaton is the same. -/

namespace LexGen

/-! ## Diagrams -/

/-- The same edge between shifted states. -/
def Edge.shift {ℓ : Type} (k : Nat) (e : Edge Nat ℓ) : Edge Nat ℓ :=
  ⟨e.source + k, e.label, e.target + k⟩

/-- A nondeterministic automaton as the sets of its labelled parts. -/
@[ext]
structure Diagram where
  states : Finset Nat
  alphabet : Finset Char
  edges : Finset (Edge Nat (Option Char))
  start : Nat
  accepting : Finset Nat

namespace Diagram

def shift (k : Nat) (d : Diagram) : Diagram where
  states := d.states.image (· + k)
  alphabet := d.alphabet
  edges := d.edges.image (·.shift k)
  start := d.start + k
  accepting := d.accepting.image (· + k)

/-- The silent edges from some states to another. -/
def silent (sources : Finset Nat) (target : Nat) : Finset (Edge Nat (Option Char)) :=
  sources.image (⟨·, none, target⟩)

/-! ### One diagram for each operator -/

def symbol (c : Char) : Diagram :=
  ⟨{0, 1}, {c}, {⟨0, some c, 1⟩}, 0, {1}⟩

def epsilon : Diagram :=
  ⟨{0}, ∅, ∅, 0, {0}⟩

def empty : Diagram :=
  ⟨{0, 1}, ∅, ∅, 0, {1}⟩

/-- The right operand stands behind the left one. -/
def concat (left right : Diagram) : Diagram :=
  let right := right.shift left.states.card
  { states := left.states ∪ right.states
    alphabet := left.alphabet ∪ right.alphabet
    edges := left.edges ∪ right.edges ∪ silent left.accepting right.start
    start := left.start
    accepting := right.accepting }

/-- The operands stand one behind the other between a new start and a new accepting state. -/
def union (left right : Diagram) : Diagram :=
  let right := right.shift (left.states.card + 1)
  let left := left.shift 1
  let merged := {0} ∪ left.states ∪ right.states
  let last := merged.card
  { states := merged ∪ {last}
    alphabet := left.alphabet ∪ right.alphabet
    edges := left.edges ∪ right.edges ∪ silent {0} left.start ∪ silent {0} right.start ∪
      silent left.accepting last ∪ silent right.accepting last
    start := 0
    accepting := {last} }

/-- The operand stands between a new start and a new accepting state, with a way back and a way
around it. -/
def star (d : Diagram) : Diagram :=
  let last := d.states.card + 1
  let d := d.shift 1
  { states := {0} ∪ d.states ∪ {last}
    alphabet := d.alphabet
    edges := d.edges ∪ silent {0} d.start ∪ silent {0} last ∪ silent d.accepting d.start ∪
      silent d.accepting last
    start := 0
    accepting := {last} }

/-- As `star`, without the way around the operand. -/
def plus (d : Diagram) : Diagram :=
  { d.star with edges := d.star.edges.erase ⟨0, none, d.states.card + 1⟩ }

/-! ## Diagrams with `n` states

When the labels of the operands are the numbers below `n`, with the start at `0` and the accepting
state at `n - 1`, those of the result are of this form again. -/

/-- The diagram with the states below `n` that is entered at the first and left from the last. -/
def upTo (n : Nat) (alphabet : Finset Char) (edges : Finset (Edge Nat (Option Char))) : Diagram :=
  ⟨Finset.range n, alphabet, edges, 0, {n - 1}⟩

variable {n m : Nat} {A B : Finset Char} {E F : Finset (Edge Nat (Option Char))}

theorem range_union_image_range : Finset.range n ∪ (Finset.range m).image (· + n) =
    Finset.range (n + m) := by
  rw [Finset.range_eq_Ico, Finset.range_eq_Ico, Finset.range_eq_Ico, Finset.image_add_right_Ico]
  rw [Nat.zero_add, Nat.add_comm m n]
  exact Finset.Ico_union_Ico_eq_Ico (Nat.zero_le n) (Nat.le_add_right n m)

theorem singleton_union_image_range : {0} ∪ (Finset.range n).image (· + 1) =
    Finset.range (n + 1) := by
  rw [Nat.add_comm]
  exact range_union_image_range

theorem range_union_singleton : Finset.range n ∪ {n} = Finset.range (n + 1) := by
  rw [Finset.union_comm]
  exact (Finset.range_add_one).symm

theorem concat_upTo (hm : 0 < m) : (upTo n A E).concat (upTo m B F) =
    upTo (n + m) (A ∪ B) ({⟨n - 1, none, n⟩} ∪ (E ∪ F.image (·.shift n))) := by
  have hlast : m - 1 + n = n + m - 1 := by omega
  simp [concat, upTo, shift, silent, range_union_image_range, hlast, Finset.union_comm]

theorem union_upTo (hn : 0 < n) (hm : 0 < m) : (upTo n A E).union (upTo m B F) =
    upTo (n + m + 2) (A ∪ B)
      ({⟨0, none, 1⟩, ⟨n, none, n + m + 1⟩, ⟨0, none, n + 1⟩, ⟨n + m, none, n + m + 1⟩} ∪
        (E.image (·.shift 1) ∪ F.image (·.shift (n + 1)))) := by
  have hmerged : {0} ∪ (Finset.range n).image (· + 1) ∪ (Finset.range m).image (· + (n + 1)) =
      Finset.range (n + m + 1) := by
    rw [singleton_union_image_range, range_union_image_range, Nat.add_right_comm]
  have hleft : n - 1 + 1 = n := by omega
  have hright : m - 1 + (n + 1) = n + m := by omega
  simp only [union, upTo, shift, silent, Finset.image_singleton, Finset.card_range, Nat.zero_add,
    hmerged, hleft, hright]
  refine Diagram.ext range_union_singleton rfl (Finset.ext fun edge => ?_) rfl rfl
  simp only [Finset.mem_union, Finset.mem_insert, Finset.mem_singleton]
  tauto

/-- The labels of a result that has its operand between two new states. -/
theorem states_between : {0} ∪ (Finset.range n).image (· + 1) ∪ {n + 1} = Finset.range (n + 2) := by
  rw [singleton_union_image_range, range_union_singleton]

theorem star_upTo (hn : 0 < n) : (upTo n A E).star =
    upTo (n + 2) A (insert ⟨0, none, n + 1⟩
      ({⟨0, none, 1⟩, ⟨n, none, 1⟩, ⟨n, none, n + 1⟩} ∪ E.image (·.shift 1))) := by
  have hlast : n - 1 + 1 = n := by omega
  simp only [star, upTo, shift, silent, Finset.image_singleton, Finset.card_range, Nat.zero_add,
    hlast, states_between]
  refine Diagram.ext rfl rfl (Finset.ext fun edge => ?_) rfl rfl
  simp only [Finset.mem_union, Finset.mem_insert, Finset.mem_singleton]
  tauto

theorem plus_upTo (hn : 0 < n) : (upTo n A E).plus =
    upTo (n + 2) A ({⟨0, none, 1⟩, ⟨n, none, 1⟩, ⟨n, none, n + 1⟩} ∪ E.image (·.shift 1)) := by
  have hcard : (upTo n A E).states.card = n := Finset.card_range n
  -- No other edge leads around the operand: those of the operand start behind the new start.
  have haround : (⟨0, none, n + 1⟩ : Edge Nat (Option Char)) ∉
      {⟨0, none, 1⟩, ⟨n, none, 1⟩, ⟨n, none, n + 1⟩} ∪ E.image (·.shift 1) := by
    simp [Edge.shift]
    omega
  rw [plus, star_upTo hn, hcard, upTo, Finset.erase_insert haround]
  rfl

end Diagram

/-! ## Diagrams of expressions -/

namespace Expr

open Layout (edgesOf ownEdges loopEdges)

/-- The automaton of an expression, put together from those of its operands. -/
def diagram : Expr → Diagram
  | .symbol c => .symbol c
  | .epsilon => .epsilon
  | .empty => .empty
  | .concat l r => l.diagram.concat r.diagram
  | .union l r => l.diagram.union r.diagram
  | .star e => e.diagram.star
  | .plus e => e.diagram.plus

theorem ownEdges_shift (e : Expr) (base k : Nat) :
    ownEdges (base + k) e = (ownEdges base e).map (·.shift k) := by
  cases e with
  | symbol c => simp [ownEdges, Edge.shift]; omega
  | epsilon | empty => rfl
  | concat l r =>
    have := l.width_pos
    simp [ownEdges, Edge.shift]
    omega
  | union l r => simp [ownEdges, Edge.shift]; omega
  | star e | plus e => simp [ownEdges, loopEdges, Edge.shift]; omega

/-- The edges of some trees in blocks that are placed elsewhere; the numbers of the nodes do not
matter. -/
theorem edgesOf_slotsOf_shift {es : List Expr} {k : Nat}
    (h : ∀ e ∈ es, ∀ id id' base,
      edgesOf (e.slots id (base + k)) = (edgesOf (e.slots id' base)).map (·.shift k))
    (id id' base : Nat) :
    edgesOf (slotsOf id (base + k) es) = (edgesOf (slotsOf id' base es)).map (·.shift k) := by
  induction es generalizing id id' base with
  | nil => rfl
  | cons e es ih =>
    obtain ⟨he, hes⟩ := List.forall_mem_cons.mp h
    rw [slotsOf, slotsOf, edgesOf_append, edgesOf_append, List.map_append, he id id' base,
      Nat.add_right_comm base k, ih hes (id + e.size) (id' + e.size)]

theorem edgesOf_shift (e : Expr) (id id' base k : Nat) :
    edgesOf (e.slots id (base + k)) = (edgesOf (e.slots id' base)).map (·.shift k) := by
  induction e using children_induction generalizing id id' base with
  | node e ih =>
    rw [slots_eq, slots_eq, edgesOf_cons, edgesOf_cons, List.map_append, Nat.add_right_comm base k,
      edgesOf_slotsOf_shift ih (id + 1) (id' + 1)]
    exact congrArg (· ++ _) (ownEdges_shift e base k)

/-- The edges of all nodes of a tree with its states from `0` on. -/
def edgeSet (e : Expr) : Finset (Edge Nat (Option Char)) :=
  (edgesOf (e.slots 0 0)).toFinset

theorem toFinset_edgesOf (e : Expr) (id base : Nat) :
    (edgesOf (e.slots id base)).toFinset = e.edgeSet.image (·.shift base) := by
  have hshift := e.edgesOf_shift id 0 0 base
  rw [Nat.zero_add] at hshift
  rw [hshift, edgeSet]
  ext edge
  simp

theorem edgeSet_eq (e : Expr) : e.edgeSet =
    (ownEdges 0 e).toFinset ∪ (edgesOf (slotsOf 1 e.inset e.children)).toFinset := by
  rw [edgeSet, slots_eq, edgesOf_cons, List.toFinset_append, Nat.zero_add, Nat.zero_add]
  rfl

theorem edgeSet_concat (l r : Expr) : (concat l r).edgeSet =
    {⟨l.width - 1, none, l.width⟩} ∪ (l.edgeSet ∪ r.edgeSet.image (·.shift l.width)) := by
  have hown : ownEdges 0 (concat l r) = [⟨l.width - 1, none, l.width⟩] := by simp [ownEdges]
  have hleft : l.edgeSet.image (·.shift 0) = l.edgeSet := Finset.image_id
  rw [edgeSet_eq, hown]
  simp [inset, children, slotsOf, edgesOf_append, toFinset_edgesOf, hleft]

theorem edgeSet_union (l r : Expr) : (union l r).edgeSet =
    {⟨0, none, 1⟩, ⟨l.width, none, l.width + r.width + 1⟩, ⟨0, none, l.width + 1⟩,
      ⟨l.width + r.width, none, l.width + r.width + 1⟩} ∪
      (l.edgeSet.image (·.shift 1) ∪ r.edgeSet.image (·.shift (l.width + 1))) := by
  have hown : ownEdges 0 (union l r) = [⟨0, none, 1⟩, ⟨l.width, none, l.width + r.width + 1⟩,
      ⟨0, none, l.width + 1⟩, ⟨l.width + r.width, none, l.width + r.width + 1⟩] := by
    simp [ownEdges, Nat.add_comm]
  rw [edgeSet_eq, hown]
  simp [inset, children, slotsOf, edgesOf_append, toFinset_edgesOf, Nat.add_comm]

theorem edgeSet_plus (e : Expr) : (plus e).edgeSet =
    {⟨0, none, 1⟩, ⟨e.width, none, 1⟩, ⟨e.width, none, e.width + 1⟩} ∪
      e.edgeSet.image (·.shift 1) := by
  have hown : ownEdges 0 (plus e) =
      [⟨0, none, 1⟩, ⟨e.width, none, 1⟩, ⟨e.width, none, e.width + 1⟩] := by
    simp [ownEdges, loopEdges]
  rw [edgeSet_eq, hown]
  simp [inset, children, slotsOf, toFinset_edgesOf]

theorem edgeSet_star (e : Expr) :
    (star e).edgeSet = insert ⟨0, none, e.width + 1⟩ (plus e).edgeSet := by
  have hown : ownEdges 0 (star e) = ownEdges 0 (plus e) ++ [⟨0, none, e.width + 1⟩] := by
    simp [ownEdges]
  rw [edgeSet_eq, edgeSet_eq, hown]
  simp [inset, children]

/-- The diagram is entered at `0` and left from its last state, and its edges are those of the slots. -/
theorem diagram_eq (e : Expr) : e.diagram = .upTo e.width e.symbols.toFinset e.edgeSet := by
  induction e with
  | symbol _ | epsilon | empty => rfl
  | concat l r ihl ihr =>
    rw [diagram, ihl, ihr, Diagram.concat_upTo r.width_pos, edgeSet_concat, symbols,
      List.toFinset_append, width]
  | union l r ihl ihr =>
    rw [diagram, ihl, ihr, Diagram.union_upTo l.width_pos r.width_pos, edgeSet_union, symbols,
      List.toFinset_append, width]
  | star e ih =>
    rw [diagram, ih, Diagram.star_upTo e.width_pos, edgeSet_star, edgeSet_plus, symbols, width]
  | plus e ih =>
    rw [diagram, ih, Diagram.plus_upTo e.width_pos, edgeSet_plus, symbols, width]

end Expr

/-! ## Diagrams of automata -/

/-- An automaton with its states labelled by their numbers. -/
def Nfa.diagram (m : Nfa) : Diagram :=
  ⟨Finset.range m.size, m.alphabet.toFinset, m.edges.toFinset, 0, {m.final}⟩

namespace Expr

open Layout (edgesOf)

/-- The automaton of an expression with the labels that the passes over its slots give the states. -/
def draftDiagram (e : Expr) : Except Violation Diagram := do
  let (root, d) ← e.draft
  let final ← Layout.tail root
  return {
    states := d.states.toFinset
    alphabet := (d.edges.filterMap (·.label)).toFinset
    edges := d.edges.toFinset
    start := root.base
    accepting := {final} }

theorem mem_edgesOf {e : Expr} {id base : Nat} {edge : Edge Nat (Option Char)} :
    edge ∈ edgesOf (e.slots id base) ↔ edge ∈ e.fragment base := by
  have hsource : ∀ edges : List (Edge Nat (Option Char)),
      edge ∈ edges ↔ edge ∈ edges.filter (·.source == edge.source) := by simp
  rw [hsource, filter_edgesOf, ← hsource]

theorem toFinset_symbols (e : Expr) :
    e.symbols.toFinset = ((edgesOf (e.slots 0 0)).filterMap (·.label)).toFinset := by
  ext c
  rw [List.mem_toFinset, List.mem_toFinset, ← List.mem_reverse, ← e.labels_fragment 0]
  simp only [List.mem_filterMap, mem_edgesOf]

theorem draftDiagram_eq (e : Expr) : e.draftDiagram = .ok e.diagram := by
  have := e.width_pos
  have hroot : (e.root 0 0).base = 0 := rfl
  have hstates : (0 :: List.range' 1 (e.width - 1)).toFinset = Finset.range e.width := by
    ext q
    rw [List.mem_toFinset, List.mem_cons, List.mem_range'_1, Finset.mem_range]
    omega
  rw [draftDiagram, Layout.draft_eq, ok_bind]
  dsimp only
  rw [Layout.tail_root, ok_bind, diagram_eq, hroot, hstates, Nat.zero_add, toFinset_symbols]
  rfl

theorem diagram_toNfa (e : Expr) : e.toNfa.diagram = e.diagram := by
  have hlast := e.last_eq 0
  rw [Nat.zero_add] at hlast
  have hfinal : e.toNfa.final = e.width - 1 := Nat.eq_sub_of_add_eq hlast
  have halphabet : e.toNfa.alphabet.toFinset = e.symbols.toFinset := by
    ext c
    rw [List.mem_toFinset, List.mem_toFinset, mem_alphabet_toNfa]
  have hedges : e.toNfa.edges.toFinset = e.edgeSet := by
    ext edge
    rw [edgeSet, List.mem_toFinset, List.mem_toFinset, mem_edges_toNfa, mem_edgesOf]
  rw [Nfa.diagram, diagram_eq, size_toNfa, hlast, hfinal, halphabet, hedges, Diagram.upTo]

/-- The construction from slots gives every state, every edge, the start and the accepting state the
label that the construction by shifting operands gives it, and it does not fail. -/
theorem construct_diagram (e : Expr) :
    e.draftDiagram = .ok e.diagram ∧
      e.construct = .ok e.toNfa ∧ e.toNfa.diagram = e.diagram ∧
      e.diagram.states = Finset.range e.toNfa.size ∧ e.diagram.start = 0 ∧
      e.diagram.accepting = {e.toNfa.size - 1} ∧ e.diagram.alphabet = e.symbols.toFinset := by
  have hstates : e.toNfa.size = e.width := by
    rw [size_toNfa, last_eq, Nat.zero_add]
  rw [hstates]
  refine ⟨e.draftDiagram_eq, e.construct_eq_toNfa, e.diagram_toNfa, ?_⟩
  rw [diagram_eq]
  exact ⟨rfl, rfl, rfl, rfl⟩

example : (union (symbol 'a') (symbol 'b')).diagram.edges =
    {⟨0, none, 1⟩, ⟨0, none, 3⟩, ⟨1, some 'a', 2⟩, ⟨2, none, 5⟩, ⟨3, some 'b', 4⟩,
      ⟨4, none, 5⟩} := by
  decide

end Expr

end LexGen
