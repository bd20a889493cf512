-- SUMMARY: Paths of a nondeterministic automaton, and the simulation by sets of states in terms of them.
import Mathlib.Tactic.Common
import LexGen.Nfa.Basic
import LexGen.Proofs.Reachability

/-! # Paths of nondeterministic automata

A path spells the characters that its edges read. The simulation holds, after a word, exactly the
states that a path from the start spells the word to. -/

namespace LexGen

open Relation

/-! ## Edges -/

/-- The node has an edge with the given label to `q`. -/
def Node.Leads (n : Node) : Option Char → Nat → Prop
  | none, q => q ∈ n.silent
  | some c, q => (c, q) ∈ n.moves

namespace Nfa

variable {m : Nfa}

theorem node_of_size_le {q : Nat} (h : m.size ≤ q) : m.node q = {} := by
  simp only [size] at h
  simp [node, h]

theorem mem_edges {e : Edge Nat (Option Char)} :
    e ∈ m.edges ↔ (m.node e.source).Leads e.label e.target := by
  obtain ⟨p, label, q⟩ := e
  have hsize : (m.node p).Leads label q → p < m.size := by
    intro h
    by_contra hp
    rw [node_of_size_le (by omega)] at h
    cases label <;> simp [Node.Leads] at h
  cases label with
  | none =>
    simp only [Node.Leads] at hsize ⊢
    simp [edges, silent]
    exact hsize
  | some c =>
    simp only [Node.Leads] at hsize ⊢
    simp [edges, silent]
    exact hsize

theorem mem_silent {p q : Nat} : q ∈ m.silent p ↔ ⟨p, none, q⟩ ∈ m.edges := by
  simp [mem_edges, Node.Leads, silent]

theorem mem_targets {p q : Nat} {c : Char} : q ∈ m.targets p c ↔ ⟨p, some c, q⟩ ∈ m.edges := by
  simp [mem_edges, Node.Leads, targets]

theorem mem_alphabet {c : Char} : c ∈ m.alphabet ↔ ∃ p q, ⟨p, some c, q⟩ ∈ m.edges := by
  simp only [alphabet, List.mem_eraseDups, List.mem_mergeSort, List.mem_flatMap, List.mem_map]
  refine ⟨fun ⟨n, hn, move, hmove, hc⟩ => ?_, fun ⟨p, q, h⟩ => ?_⟩
  · subst hc
    obtain ⟨p, hp, hnp⟩ := List.mem_iff_getElem.mp hn
    refine ⟨p, move.2, mem_edges.mpr ?_⟩
    simp at hp hnp
    simpa [node, Node.Leads, hp, hnp] using hmove
  · have hmove : (c, q) ∈ (m.node p).moves := mem_edges.mp h
    have hp : p < m.nodes.size := by
      by_contra hp
      rw [node_of_size_le (Nat.le_of_not_lt hp)] at hmove
      cases hmove
    refine ⟨m.node p, ?_, (c, q), hmove, rfl⟩
    simp [node, hp]

theorem leads_addEdge {nodes : Array Node} {e : Edge Nat (Option Char)} {p q : Nat}
    {label : Option Char} :
    ((addEdge nodes e).getD p {}).Leads label q ↔
      e = ⟨p, label, q⟩ ∧ p < nodes.size ∨ (nodes.getD p {}).Leads label q := by
  obtain ⟨source, label', target⟩ := e
  simp only [addEdge, Array.getD_eq_getD_getElem?, Array.getElem?_modify]
  by_cases hp : source = p
  · subst hp
    by_cases hsize : source < nodes.size
    · cases label' <;> cases label <;> simp [hsize, Node.Leads, eq_comm]
    · cases label' <;> cases label <;> simp [hsize, Node.Leads]
  · simp [hp]

theorem size_addEdge {nodes : Array Node} {e : Edge Nat (Option Char)} :
    (addEdge nodes e).size = nodes.size := by
  simp [addEdge]

theorem size_ofEdges {n final : Nat} {edges : List (Edge Nat (Option Char))} :
    (ofEdges n edges final).size = n := by
  simp only [ofEdges, size]
  induction edges with
  | nil => simp
  | cons e edges ih => rw [List.foldr_cons, size_addEdge, ih]

theorem mem_edges_ofEdges {n final : Nat} {edges : List (Edge Nat (Option Char))}
    {e : Edge Nat (Option Char)} :
    e ∈ (ofEdges n edges final).edges ↔ e ∈ edges ∧ e.source < n := by
  rw [mem_edges]
  obtain ⟨p, label, q⟩ := e
  induction edges with
  | nil =>
    cases label <;> simp [node, ofEdges, Node.Leads, Array.getElem?_replicate] <;> split <;> simp
  | cons e' edges ih =>
    have hsize : (edges.foldr (fun e nodes => addEdge nodes e) (Array.replicate n {})).size = n :=
      @size_ofEdges n final edges
    simp only [node, ofEdges, List.foldr_cons] at ih ⊢
    rw [leads_addEdge, ih, hsize]
    constructor
    · intro h
      rcases h with ⟨rfl, hp⟩ | ⟨he, hp⟩
      · exact ⟨List.mem_cons_self, hp⟩
      · exact ⟨List.mem_cons_of_mem _ he, hp⟩
    · intro ⟨he, hp⟩
      rcases List.mem_cons.mp he with rfl | he
      · exact .inl ⟨rfl, hp⟩
      · exact .inr ⟨he, hp⟩

/-! ## Paths -/

/-- A path along `edges` from one state to another that spells a word. -/
inductive Path (edges : List (Edge Nat (Option Char))) : Nat → List Char → Nat → Prop where
  | nil (p : Nat) : Path edges p [] p
  | silent {p q r : Nat} {w : List Char} :
      ⟨p, none, q⟩ ∈ edges → Path edges q w r → Path edges p w r
  | read {p q r : Nat} {c : Char} {w : List Char} :
      ⟨p, some c, q⟩ ∈ edges → Path edges q w r → Path edges p (c :: w) r

namespace Path

variable {edges edges' : List (Edge Nat (Option Char))} {p q r : Nat} {u v w : List Char}

theorem append (h : Path edges p u q) (h' : Path edges q v r) : Path edges p (u ++ v) r := by
  induction h with
  | nil _ => exact h'
  | silent he _ ih => exact .silent he (ih h')
  | read he _ ih => exact .read he (ih h')

theorem mono (h : Path edges p w q) (hsub : edges ⊆ edges') : Path edges' p w q := by
  induction h with
  | nil p => exact .nil p
  | silent he _ ih => exact .silent (hsub he) ih
  | read he _ ih => exact .read (hsub he) ih

theorem congr (h : ∀ e, e ∈ edges ↔ e ∈ edges') : Path edges p w q ↔ Path edges' p w q :=
  ⟨fun hp => hp.mono fun e he => (h e).mp he, fun hp => hp.mono fun e he => (h e).mpr he⟩

end Path

/-- `q` is reached from `p` by silent edges. -/
def SilentPath (m : Nfa) : Nat → Nat → Prop :=
  ReflTransGen fun a b => b ∈ m.silent a

theorem SilentPath.path {p q : Nat} (h : m.SilentPath p q) : Path m.edges p [] q := by
  induction h using ReflTransGen.head_induction_on with
  | refl => exact .nil q
  | head hab _ ih => exact .silent (mem_silent.mp hab) ih

/-! ## Closures -/

/-- The states of `qs` belong to the automaton. -/
def Within (m : Nfa) (qs : List Nat) : Prop :=
  ∀ q ∈ qs, q < m.size

/-- No silent edge leaves the set. -/
def Closed (m : Nfa) (qs : List Nat) : Prop :=
  ∀ p ∈ qs, ∀ q ∈ m.silent p, q ∈ qs

/-- All edges end in states of the automaton, which has a start state. -/
structure WellFormed (m : Nfa) : Prop where
  size_pos : 0 < m.size
  target_lt : ∀ e ∈ m.edges, e.target < m.size

theorem within_singleton {q : Nat} (hq : q < m.size) : m.Within [q] :=
  fun p hp => by rwa [List.mem_singleton.mp hp]

theorem within_start (hm : m.WellFormed) : m.Within [0] :=
  within_singleton hm.size_pos

theorem WellFormed.within_silent (hm : m.WellFormed) (p : Nat) : m.Within (m.silent p) :=
  fun _ hq => hm.target_lt _ (mem_silent.mp hq)

theorem WellFormed.mem_range_of_silent (hm : m.WellFormed) :
    ∀ p ∈ List.range m.size, ∀ q ∈ m.silent p, q ∈ List.range m.size :=
  fun p _ q hq => List.mem_range.mpr (hm.within_silent p q hq)

theorem WellFormed.within_targets (hm : m.WellFormed) (qs : List Nat) (c : Char) :
    m.Within (qs.flatMap (m.targets · c)) := by
  intro q hq
  obtain ⟨p, _, hq⟩ := List.mem_flatMap.mp hq
  exact hm.target_lt _ (mem_targets.mp hq)

theorem mem_closure (hm : m.WellFormed) {qs : List Nat} (hqs : m.Within qs) {p : Nat} :
    p ∈ m.closure qs ↔ ∃ q ∈ qs, m.SilentPath q p := by
  simp only [closure, List.mem_filter, List.contains_iff_mem, Graph.mem_walk]
  constructor
  · intro ⟨_, q, hq, h⟩
    exact ⟨q, hq, ((Graph.reachesIn_iff hm.mem_range_of_silent).mp h).2⟩
  · intro ⟨q, hq, h⟩
    have hmet := (Graph.reachesIn_iff hm.mem_range_of_silent).mpr ⟨List.mem_range.mpr (hqs q hq), h⟩
    exact ⟨hmet.mem_right, q, hq, hmet⟩

theorem closed_closure (hm : m.WellFormed) {qs : List Nat} (hqs : m.Within qs) :
    m.Closed (m.closure qs) := by
  intro p hp q hq
  obtain ⟨r, hr, h⟩ := (mem_closure hm hqs).mp hp
  exact (mem_closure hm hqs).mpr ⟨r, hr, h.tail hq⟩

theorem mem_stepSet (hm : m.WellFormed) {qs : List Nat} {c : Char} {p : Nat} :
    p ∈ m.stepSet qs c ↔
      ∃ q ∈ qs, ∃ r, ⟨q, some c, r⟩ ∈ m.edges ∧ m.SilentPath r p := by
  rw [stepSet, mem_closure hm (hm.within_targets qs c)]
  constructor
  · intro ⟨r, hr, h⟩
    obtain ⟨q, hq, hread⟩ := List.mem_flatMap.mp hr
    exact ⟨q, hq, r, mem_targets.mp hread, h⟩
  · intro ⟨q, hq, r, hread, h⟩
    exact ⟨r, List.mem_flatMap.mpr ⟨q, hq, mem_targets.mpr hread⟩, h⟩

theorem closed_stepSet (hm : m.WellFormed) (qs : List Nat) (c : Char) :
    m.Closed (m.stepSet qs c) :=
  closed_closure hm (hm.within_targets qs c)

/-! ## Simulation -/

/-- The last state of a path that spells nothing is in every closed set that holds the first. -/
theorem Path.mem_of_closed {qs : List Nat} (hqs : m.Closed qs) {p q : Nat}
    (h : Path m.edges p [] q) (hp : p ∈ qs) : q ∈ qs := by
  generalize hw : [] = w at h
  induction h with
  | nil _ => exact hp
  | silent he _ ih => exact ih (hqs _ hp _ (mem_silent.mpr he)) hw
  | read _ _ _ => cases hw

/-- The first character of a word can be read by a step on the set. -/
theorem Path.exists_stepSet (hm : m.WellFormed) {qs : List Nat} (hqs : m.Closed qs) {p q : Nat}
    {c : Char} {w : List Char} (h : Path m.edges p (c :: w) q) (hp : p ∈ qs) :
    ∃ r ∈ m.stepSet qs c, Path m.edges r w q := by
  generalize hw : c :: w = w' at h
  induction h with
  | nil _ => cases hw
  | silent he _ ih => exact ih (hqs _ hp _ (mem_silent.mpr he)) hw
  | read he h _ =>
    cases hw
    exact ⟨_, (mem_stepSet hm).mpr ⟨_, hp, _, he, .refl⟩, h⟩

theorem mem_foldl_stepSet (hm : m.WellFormed) {qs : List Nat} (hqs : m.Closed qs)
    {w : List Char} {q : Nat} :
    q ∈ w.foldl m.stepSet qs ↔ ∃ p ∈ qs, Path m.edges p w q := by
  induction w generalizing qs with
  | nil =>
    constructor
    · intro hq
      exact ⟨q, hq, .nil q⟩
    · intro ⟨p, hp, h⟩
      exact h.mem_of_closed hqs hp
  | cons c w ih =>
    rw [List.foldl_cons, ih (closed_stepSet hm qs c)]
    constructor
    · intro ⟨r, hr, h⟩
      obtain ⟨p, hp, s, hread, hsilent⟩ := (mem_stepSet hm).mp hr
      exact ⟨p, hp, .read hread (hsilent.path.append h)⟩
    · intro ⟨p, hp, h⟩
      exact h.exists_stepSet hm hqs hp

theorem accept_iff_path (hm : m.WellFormed) {w : List Char} :
    m.accept w = true ↔ Path m.edges 0 w m.final := by
  have hclosed : m.Closed m.initial := closed_closure hm (within_start hm)
  rw [accept, isFinal, List.contains_iff_mem, mem_foldl_stepSet hm hclosed]
  constructor
  · intro ⟨p, hp, h⟩
    obtain ⟨q, hq, hsilent⟩ := (mem_closure hm (within_start hm)).mp hp
    rw [List.mem_singleton.mp hq] at hsilent
    exact hsilent.path.append h
  · intro h
    exact ⟨0, (mem_closure hm (within_start hm)).mpr ⟨0, List.mem_singleton_self 0, .refl⟩, h⟩

end Nfa

end LexGen
