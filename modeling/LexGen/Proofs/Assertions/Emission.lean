-- SUMMARY: The edges emitted from the slots of an expression: no check fails, and the automaton is the one placed by recursion.
import Mathlib
import LexGen.Proofs.Assertions.Layout
import LexGen.Proofs.Nfa.Thompson

/-! # Edges of an expression

When the slots of an expression are filled, each node adds its own edges between the blocks of its
operands and the ends of its own block. The edges come in another order than those placed by recursion
on the tree, but the edges out of one state all belong to one node, and they come in the same order. -/

namespace LexGen

/-! ## The construction -/

namespace Layout

/-- The last state of the block of a node. -/
def tail (s : Slot) : Except Violation Nat :=
  if s.base + s.size = 0 then .error .emptyBlock else .ok (s.base + s.size - 1)

/-- A nondeterministic automaton in the making. -/
structure Draft where
  states : List Nat
  edges : List (Edge Nat (Option Char))

/-- Adds an edge between two states. -/
def Draft.connect (d : Draft) (source : Nat) (label : Option Char) (target : Nat) :
    Except Violation Draft :=
  if !d.states.contains source then .error (.nfaSource source)
  else if !d.states.contains target then .error (.nfaTarget target)
  else .ok { d with edges := d.edges ++ [⟨source, label, target⟩] }

/-- Adds the edges into an operand and out of it. -/
def emitBranch (d : Draft) (head last : Nat) (k : Slot) : Except Violation Draft := do
  let d ← d.connect head none k.base
  d.connect (← tail k) none last

/-- Adds the edges into an operand, back to its first state, and out of it. -/
def emitLoop (d : Draft) (head last : Nat) (k : Slot) : Except Violation Draft := do
  let d ← d.connect head none k.base
  let d ← d.connect (← tail k) none k.base
  d.connect (← tail k) none last

/-- Adds the edges of one node. -/
def emit (slots : List Slot) (d : Draft) (s : Slot) : Except Violation Draft := do
  let last ← tail s
  match s.expr, s.kids with
  | .symbol c, [] => d.connect s.base (some c) last
  | .epsilon, [] => return d
  | .empty, [] => return d
  | .concat .., [l, r] => do
    let l ← slot slots l
    let r ← slot slots r
    d.connect (← tail l) none r.base
  | .union .., [l, r] => do
    let l ← slot slots l
    let r ← slot slots r
    let d ← emitBranch d s.base last l
    emitBranch d s.base last r
  | .star _, [k] => do
    let k ← slot slots k
    let d ← emitLoop d s.base last k
    d.connect s.base none last
  | .plus _, [k] => do
    let k ← slot slots k
    emitLoop d s.base last k
  | e, _ => .error (.operandCount e.name)

end Layout

/-- The automaton of an expression, built from its slots. -/
def Expr.construct (e : Expr) : Except Violation Nfa := do
  let slots ← Layout.layout (← Layout.flatten [] [(e, none)])
  let root ← Layout.slot slots 0
  let d : Layout.Draft := ⟨root.base :: List.range' 1 (root.size - 1), []⟩
  let d ← slots.foldlM (Layout.emit slots) d
  let final ← Layout.tail root
  if !d.states.contains final then throw (.nfaAccepting final)
  return Nfa.ofEdges d.states.length d.edges final

/-- The slot of the root, and the automaton in the making when all nodes have added their edges. -/
def Expr.draft (e : Expr) : Except Violation (Slot × Layout.Draft) := do
  let slots ← Layout.layout (← Layout.flatten [] [(e, none)])
  let root ← Layout.slot slots 0
  let d : Layout.Draft := ⟨root.base :: List.range' 1 (root.size - 1), []⟩
  let d ← slots.foldlM (Layout.emit slots) d
  return (root, d)

theorem Expr.construct_eq_bind (e : Expr) : e.construct = (do
    let (root, d) ← e.draft
    let final ← Layout.tail root
    if !d.states.contains final then throw (.nfaAccepting final)
    return Nfa.ofEdges d.states.length d.edges final) := by
  simp only [Expr.construct, Expr.draft, bind_assoc, pure_bind]

/-! ## Blocks inside blocks -/

namespace Layout

variable {before after : List Slot} {s : Slot} {id base : Nat} {e : Expr} {es : List Expr}

/-- The edges into an operand, back to its first state, and out of it. -/
def loopEdges (first : Nat) (k : Expr) : List (Edge Nat (Option Char)) :=
  [⟨first, none, first + 1⟩, ⟨first + k.width, none, first + 1⟩,
    ⟨first + k.width, none, first + k.width + 1⟩]

/-- The edges that a node has besides those of its operands. -/
def ownEdges (first : Nat) : Expr → List (Edge Nat (Option Char))
  | .symbol c => [⟨first, some c, first + 1⟩]
  | .epsilon | .empty => []
  | .concat l _ => [⟨first + l.width - 1, none, first + l.width⟩]
  | .union l r =>
    [⟨first, none, first + 1⟩, ⟨first + l.width, none, first + l.width + r.width + 1⟩,
      ⟨first, none, first + 1 + l.width⟩,
      ⟨first + l.width + r.width, none, first + l.width + r.width + 1⟩]
  | .star k => loopEdges first k ++ [⟨first, none, first + k.width + 1⟩]
  | .plus k => loopEdges first k

/-- The slot of the root of a tree whose block lies between two states, and the numbers of its
operands lead to their roots. -/
def Laid (slots : List Slot) (first last : Nat) (s : Slot) : Prop :=
  ∃ (e : Expr) (id base : Nat), s = e.root id base ∧ first ≤ base ∧ base + e.width ≤ last ∧
    List.Forall₂ (fun k t => slot slots k = .ok t) (Expr.rootIds (id + 1) e.children)
      (Expr.rootsOf (id + 1) (base + e.inset) e.children)

theorem Laid.mono {slots : List Slot} {first last first' last' : Nat} (h : Laid slots first last s)
    (hfirst : first' ≤ first) (hlast : last ≤ last') : Laid slots first' last' s := by
  obtain ⟨e, id, base, hs, hle, hlt, hkids⟩ := h
  exact ⟨e, id, base, hs, by omega, by omega, hkids⟩

theorem inset_add_sum_le (e : Expr) : e.inset + (e.children.map Expr.width).sum ≤ e.width := by
  cases e <;> simp [Expr.inset, Expr.children, Expr.width] <;> omega

/-- All slots of a tree are laid out inside the block of its root. -/
def AllLaid (e : Expr) : Prop :=
  ∀ (id base : Nat) (before after : List Slot), before.length = id → ∀ s ∈ e.slots id base,
    Laid (before ++ (e.slots id base ++ after)) base (base + e.width) s

theorem laid_children (base : Nat) (after : List Slot) (h : ∀ k ∈ es, AllLaid k)
    (hid : before.length = id) :
    ∀ s ∈ Expr.slotsOf id base es,
      Laid (before ++ (Expr.slotsOf id base es ++ after)) base (base + (es.map Expr.width).sum) s := by
  induction es generalizing id base before with
  | nil => simp [Expr.slotsOf]
  | cons k es ih =>
    obtain ⟨hk, hes⟩ := List.forall_mem_cons.mp h
    have hnext : (before ++ k.slots id base).length = id + k.size := by
      rw [List.length_append, Expr.length_slots, hid]
    have hrest := ih (base + k.width) hes hnext
    rw [List.append_assoc] at hrest
    rw [Expr.slotsOf, List.append_assoc, List.map_cons, List.sum_cons]
    intro s hs
    rcases List.mem_append.mp hs with hs | hs
    · exact (hk id base before _ hid s hs).mono (Nat.le_refl _) (by omega)
    · exact (hrest s hs).mono (by omega) (by omega)

theorem allLaid (e : Expr) : AllLaid e := by
  induction e using Expr.children_induction with
  | node e ih =>
    intro id base before after hid s hs
    have hnext : (before ++ [e.root id base]).length = id + 1 := by
      rw [List.length_append, hid, List.length_singleton]
    have hkids := slot_rootIds (fun s => s) (base + e.inset) e.children after hnext
    have hlaid := laid_children (base + e.inset) after ih hnext
    simp only [List.append_assoc, List.singleton_append, List.map_id'] at hkids hlaid
    rw [Expr.slots_eq] at hs ⊢
    rw [List.cons_append]
    rcases List.mem_cons.mp hs with rfl | hs
    · exact ⟨e, id, base, rfl, Nat.le_refl _, Nat.le_refl _, hkids⟩
    · have := inset_add_sum_le e
      exact (hlaid s hs).mono (by omega) (by omega)

theorem tail_root : tail (e.root id base) = .ok (base + e.width - 1) := by
  have := Expr.width_pos e
  rw [tail, if_neg]
  · rfl
  · rw [Expr.root]
    dsimp only
    omega

variable {slots : List Slot} {states : List Nat} {edges : List (Edge Nat (Option Char))}

theorem connect_eq {p q : Nat} {label : Option Char} (hp : p ∈ states) (hq : q ∈ states) :
    Draft.connect ⟨states, edges⟩ p label q = .ok ⟨states, edges ++ [⟨p, label, q⟩]⟩ := by
  simp [Draft.connect, hp, hq]

theorem emitBranch_eq {head inner last : Nat} {k : Expr} (hhead : head ∈ states)
    (hlast : last ∈ states) (hmem : ∀ q, base ≤ q → q < base + k.width → q ∈ states)
    (hinner : base + k.width = inner + 1) :
    emitBranch ⟨states, edges⟩ head last (k.root id base) =
      .ok ⟨states, edges ++ [⟨head, none, base⟩, ⟨inner, none, last⟩]⟩ := by
  have := k.width_pos
  have hroot : (k.root id base).base = base := rfl
  rw [emitBranch, hroot, connect_eq hhead (hmem base (by omega) (by omega)), ok_bind, tail_root,
    ok_bind, hinner, Nat.add_sub_cancel, connect_eq (hmem inner (by omega) (by omega)) hlast,
    List.append_assoc]
  rfl

theorem emitLoop_eq {k : Expr} (hmem : ∀ q, base ≤ q → q < base + (k.width + 2) → q ∈ states) :
    emitLoop ⟨states, edges⟩ base (base + k.width + 1) (k.root id (base + 1)) =
      .ok ⟨states, edges ++ loopEdges base k⟩ := by
  have := k.width_pos
  have hhead := hmem base (by omega) (by omega)
  have hfirst := hmem (base + 1) (by omega) (by omega)
  have hinner := hmem (base + k.width) (by omega) (by omega)
  have hlast := hmem (base + k.width + 1) (by omega) (by omega)
  have hroot : (k.root id (base + 1)).base = base + 1 := rfl
  have htail : base + 1 + k.width - 1 = base + k.width := by omega
  rw [emitLoop, hroot, connect_eq hhead hfirst, ok_bind, tail_root, htail, ok_bind,
    connect_eq hinner hfirst, ok_bind, ok_bind, connect_eq hinner hlast]
  simp [loopEdges]

/-- A slot that is laid out in the states of the automaton has its edges added. -/
theorem emit_laid {first last : Nat} (h : Laid slots first last s)
    (hstates : ∀ q, first ≤ q → q < last → q ∈ states) :
    emit slots ⟨states, edges⟩ s = .ok ⟨states, edges ++ ownEdges s.base s.expr⟩ := by
  obtain ⟨e, id, base, rfl, hfirst, hlast, hkids⟩ := h
  have hmem : ∀ q, base ≤ q → q < base + e.width → q ∈ states :=
    fun q hq hlt => hstates q (by omega) (by omega)
  have hfields : (e.root id base).base = base ∧ (e.root id base).expr = e := ⟨rfl, rfl⟩
  rw [emit, tail_root, ok_bind, hfields.1, hfields.2]
  cases e with
  | symbol c =>
    exact connect_eq (hmem base (by omega) (by simp [Expr.width]))
      (hmem (base + 1) (by omega) (by simp [Expr.width]))
  | epsilon | empty =>
    change Except.ok (Draft.mk states edges) = .ok ⟨states, edges ++ []⟩
    rw [List.append_nil]
  | concat l r =>
    have hwidth : (Expr.concat l r).width = l.width + r.width := rfl
    have := l.width_pos
    have := r.width_pos
    obtain ⟨hl, hkids⟩ := List.forall₂_cons.mp hkids
    obtain ⟨hr, _⟩ := List.forall₂_cons.mp hkids
    change slot slots (id + 1) >>= _ = _
    rw [hl, ok_bind, hr, ok_bind, tail_root, ok_bind]
    exact connect_eq (hmem (base + l.width - 1) (by omega) (by omega))
      (hmem (base + l.width) (by omega) (by omega))
  | union l r =>
    have hwidth : (Expr.union l r).width = l.width + r.width + 2 := rfl
    have hhead := hmem base (by omega) (by omega)
    have hlast := hmem (base + l.width + r.width + 1) (by omega) (by omega)
    have htail : base + (Expr.union l r).width - 1 = base + l.width + r.width + 1 := by omega
    have hinnerL : base + 1 + l.width = base + l.width + 1 := by omega
    have hinnerR : base + 1 + l.width + r.width = base + l.width + r.width + 1 := by omega
    obtain ⟨hl, hkids⟩ := List.forall₂_cons.mp hkids
    obtain ⟨hr, _⟩ := List.forall₂_cons.mp hkids
    change slot slots (id + 1) >>= _ = _
    rw [htail, hl, ok_bind, hr, ok_bind]
    change emitBranch _ _ _ (l.root (id + 1) (base + 1)) >>= _ = _
    rw [emitBranch_eq hhead hlast (fun q hq hlt => hmem q (by omega) (by omega)) hinnerL, ok_bind]
    change emitBranch _ _ _ (r.root (id + 1 + l.size) (base + 1 + l.width)) = _
    rw [emitBranch_eq hhead hlast (fun q hq hlt => hmem q (by omega) (by omega)) hinnerR,
      List.append_assoc]
    rfl
  | star k =>
    obtain ⟨hk, _⟩ := List.forall₂_cons.mp hkids
    change slot slots (id + 1) >>= _ = _
    rw [hk, ok_bind]
    change emitLoop ⟨states, edges⟩ base (base + k.width + 1) (k.root (id + 1) (base + 1)) >>= _ = _
    rw [emitLoop_eq hmem, ok_bind, ownEdges, ← List.append_assoc]
    exact connect_eq (hmem base (by omega) (by simp [Expr.width]))
      (hmem (base + k.width + 1) (by omega) (by simp only [Expr.width]; omega))
  | plus k =>
    obtain ⟨hk, _⟩ := List.forall₂_cons.mp hkids
    change slot slots (id + 1) >>= _ = _
    rw [hk, ok_bind]
    exact emitLoop_eq hmem

/-- The edges of some nodes. -/
def edgesOf (slots : List Slot) : List (Edge Nat (Option Char)) :=
  slots.flatMap fun s => ownEdges s.base s.expr

theorem foldlM_emit {some : List Slot} {first last : Nat} (h : ∀ s ∈ some, Laid slots first last s)
    (hstates : ∀ q, first ≤ q → q < last → q ∈ states) :
    some.foldlM (emit slots) ⟨states, edges⟩ = .ok ⟨states, edges ++ edgesOf some⟩ := by
  induction some generalizing edges with
  | nil =>
    rw [edgesOf, List.flatMap_nil, List.append_nil]
    rfl
  | cons s some ih =>
    obtain ⟨hs, hsome⟩ := List.forall_mem_cons.mp h
    rw [List.foldlM_cons, emit_laid hs hstates, ok_bind, ih hsome, List.append_assoc]
    rfl

theorem draft_eq (e : Expr) :
    e.draft = .ok (e.root 0 0, ⟨0 :: List.range' 1 (e.width - 1), edgesOf (e.slots 0 0)⟩) := by
  have hroot : slot (e.slots 0 0) 0 = .ok (e.root 0 0) := by
    rw [Expr.slots_eq]
    rfl
  have hstates : ∀ q, 0 ≤ q → q < 0 + e.width → q ∈ 0 :: List.range' 1 (e.width - 1) := by
    intro q _ hq
    rw [List.mem_cons, List.mem_range'_1]
    omega
  have hlaid : ∀ s ∈ e.slots 0 0, Laid (e.slots 0 0) 0 (0 + e.width) s := by
    have hall := allLaid e 0 0 [] [] rfl
    rwa [List.nil_append, List.append_nil] at hall
  rw [Expr.draft, flatten_eq, ok_bind, layout_eq, ok_bind, hroot, ok_bind]
  change (e.slots 0 0).foldlM (emit (e.slots 0 0)) ⟨0 :: List.range' 1 (e.width - 1), []⟩ >>= _ = _
  rw [foldlM_emit hlaid hstates, ok_bind, List.nil_append]
  rfl

theorem construct_eq (e : Expr) :
    e.construct = .ok (Nfa.ofEdges e.width (edgesOf (e.slots 0 0)) (e.width - 1)) := by
  have := e.width_pos
  have hfinal : (0 :: List.range' 1 (e.width - 1)).contains (0 + e.width - 1) = true := by
    rw [List.contains_iff_mem, List.mem_cons, List.mem_range'_1]
    omega
  have hlength : (0 :: List.range' 1 (e.width - 1)).length = e.width := by
    rw [List.length_cons, List.length_range']
    omega
  rw [Expr.construct_eq_bind, draft_eq, ok_bind]
  dsimp only
  rw [tail_root, ok_bind, hfinal, hlength, Nat.zero_add]
  rfl

end Layout

/-! ## The same edges in another order -/

namespace Nfa

/-- Puts an edge in front of the others of its kind out of the same state. -/
def addTo (e : Edge Nat (Option Char)) (node : Node) : Node :=
  match e.label with
  | none => { node with silent := e.target :: node.silent }
  | some c => { node with moves := (c, e.target) :: node.moves }

theorem getElem?_foldr_addEdge (edges : List (Edge Nat (Option Char))) (nodes : Array Node)
    (q : Nat) : (edges.foldr (fun e nodes => addEdge nodes e) nodes)[q]? =
      nodes[q]?.map ((edges.filter (·.source == q)).foldr addTo ·) := by
  induction edges with
  | nil => simp
  | cons e edges ih =>
    have hadd : ∀ nodes : Array Node, addEdge nodes e = nodes.modify e.source (addTo e) :=
      fun _ => rfl
    rw [List.foldr_cons, hadd, Array.getElem?_modify, ih]
    by_cases hq : e.source = q
    · simp [hq, Function.comp_def]
    · simp [hq]

/-- Only the order of the edges out of each state matters. -/
theorem ofEdges_congr {size final : Nat} {edges edges' : List (Edge Nat (Option Char))}
    (h : ∀ q, edges.filter (·.source == q) = edges'.filter (·.source == q)) :
    ofEdges size edges final = ofEdges size edges' final := by
  rw [ofEdges, ofEdges, Nfa.mk.injEq]
  refine ⟨Array.ext_getElem? fun q => ?_, rfl⟩
  rw [getElem?_foldr_addEdge, getElem?_foldr_addEdge, h]

variable {as bs as' bs' cs ds : List (Edge Nat (Option Char))} {q : Nat}

theorem filter_append_congr (h : as.filter (·.source == q) = as'.filter (·.source == q))
    (h' : bs.filter (·.source == q) = bs'.filter (·.source == q)) :
    (as ++ bs).filter (·.source == q) = (as' ++ bs').filter (·.source == q) := by
  rw [List.filter_append, List.filter_append, h, h']

theorem filter_append_comm (h : ∀ e ∈ as, ∀ e' ∈ bs, e.source ≠ e'.source) :
    (as ++ bs).filter (·.source == q) = (bs ++ as).filter (·.source == q) := by
  rw [List.filter_append, List.filter_append]
  cases has : as.filter (·.source == q) with
  | nil => rw [List.nil_append, List.append_nil]
  | cons e rest =>
    have he : e ∈ as.filter (·.source == q) := by simp [has]
    obtain ⟨hmem, hsource⟩ := List.mem_filter.mp he
    have hnil : bs.filter (·.source == q) = [] := by
      rw [List.filter_eq_nil_iff]
      intro e' he' hsource'
      exact h e hmem e' he' ((beq_iff_eq.mp hsource).trans (beq_iff_eq.mp hsource').symm)
    rw [hnil, List.nil_append, List.append_nil]

theorem filter_append_swap (h : ∀ e ∈ bs, ∀ e' ∈ cs, e.source ≠ e'.source) :
    (as ++ (bs ++ cs) ++ ds).filter (·.source == q) =
      (as ++ (cs ++ bs) ++ ds).filter (·.source == q) :=
  filter_append_congr (filter_append_congr rfl (filter_append_comm h)) rfl

end Nfa

namespace Expr

theorem last_eq (e : Expr) (first : Nat) : e.last first + 1 = first + e.width := by
  induction e generalizing first with
  | symbol _ | epsilon | empty => rfl
  | concat l r ihl ihr =>
    rw [last, place_concat, ihr, ihl, width]
    omega
  | union l r ihl ihr =>
    rw [last, place_union, ihr, ihl, width]
    omega
  | star e ih | plus e ih =>
    have hlast : (e.place (first + 1) []).1 + 1 = first + 1 + e.width := ih (first + 1)
    simp only [last, place, width]
    omega

open Layout (edgesOf ownEdges)

theorem edgesOf_append (ss ts : List Slot) : edgesOf (ss ++ ts) = edgesOf ss ++ edgesOf ts :=
  List.flatMap_append

theorem edgesOf_cons (s : Slot) (ss : List Slot) :
    edgesOf (s :: ss) = ownEdges s.base s.expr ++ edgesOf ss :=
  List.flatMap_cons

theorem fragment_concat (l r : Expr) (first : Nat) : (concat l r).fragment first =
    ownEdges first (concat l r) ++ (r.fragment (first + l.width) ++ l.fragment first) := by
  have hlast := l.last_eq first
  rw [fragment, place_concat, hlast, ownEdges, ← hlast, Nat.add_sub_cancel]
  rfl

theorem fragment_union (l r : Expr) (first : Nat) : (union l r).fragment first =
    [⟨first, none, first + 1⟩] ++ ([⟨first, none, first + 1 + l.width⟩] ++
      [⟨first + l.width, none, first + l.width + r.width + 1⟩]) ++
      [⟨first + l.width + r.width, none, first + l.width + r.width + 1⟩] ++
      (r.fragment (first + 1 + l.width) ++ l.fragment (first + 1)) := by
  have hlastL := l.last_eq (first + 1)
  have hlastR := r.last_eq (first + 1 + l.width)
  have hinnerL : l.last (first + 1) = first + l.width := by omega
  have hinnerR : r.last (first + 1 + l.width) = first + l.width + r.width := by omega
  rw [fragment, place_union, hlastL, hinnerL, hinnerR]
  rfl

theorem ownEdges_union (l r : Expr) (first : Nat) : ownEdges first (union l r) =
    [⟨first, none, first + 1⟩] ++ ([⟨first + l.width, none, first + l.width + r.width + 1⟩] ++
      [⟨first, none, first + 1 + l.width⟩]) ++
      [⟨first + l.width + r.width, none, first + l.width + r.width + 1⟩] :=
  rfl

theorem place_operand (e : Expr) (first : Nat) : (e.place (first + 1) []).1 = first + e.width := by
  have hlast := e.last_eq (first + 1)
  rw [last] at hlast
  omega

theorem fragment_star (e : Expr) (first : Nat) : (star e).fragment first =
    [⟨first, none, first + 1⟩] ++ ([⟨first, none, first + e.width + 1⟩] ++
      [⟨first + e.width, none, first + 1⟩, ⟨first + e.width, none, first + e.width + 1⟩]) ++ [] ++
      e.fragment (first + 1) := by
  simp only [fragment, place, place_operand]
  rfl

theorem ownEdges_star (e : Expr) (first : Nat) : ownEdges first (star e) =
    [⟨first, none, first + 1⟩] ++
      ([⟨first + e.width, none, first + 1⟩, ⟨first + e.width, none, first + e.width + 1⟩] ++
        [⟨first, none, first + e.width + 1⟩]) ++ [] :=
  rfl

theorem fragment_plus (e : Expr) (first : Nat) :
    (plus e).fragment first = ownEdges first (plus e) ++ e.fragment (first + 1) := by
  simp only [fragment, place, place_operand]
  rfl

/-- The edges of operands one behind the other have different sources. -/
theorem filter_fragments_comm (l r : Expr) (first q : Nat) :
    (l.fragment first ++ r.fragment (first + l.width)).filter (·.source == q) =
      (r.fragment (first + l.width) ++ l.fragment first).filter (·.source == q) := by
  refine Nfa.filter_append_comm fun e he e' he' => ?_
  have hl := ((l.fragment_language first).inside e he).1
  have hr := ((r.fragment_language (first + l.width)).inside e' he').1
  have := l.last_eq first
  omega

/-- The edges out of each state are emitted in the order in which they are placed. -/
theorem filter_edgesOf (e : Expr) (id base q : Nat) :
    (edgesOf (e.slots id base)).filter (·.source == q) =
      (e.fragment base).filter (·.source == q) := by
  -- Its own edges come first for every node; only operands and edges of different sources swap places.
  induction e generalizing id base with
  | symbol _ | epsilon | empty => rfl
  | concat l r ihl ihr =>
    rw [slots, edgesOf_cons, edgesOf_append, fragment_concat]
    exact Nfa.filter_append_congr rfl
      ((Nfa.filter_append_congr (ihl _ _) (ihr _ _)).trans (filter_fragments_comm l r base q))
  | union l r ihl ihr =>
    rw [slots, edgesOf_cons, edgesOf_append, fragment_union]
    change (ownEdges base (union l r) ++ _).filter _ = _
    rw [ownEdges_union]
    refine Nfa.filter_append_congr (Nfa.filter_append_swap ?_)
      ((Nfa.filter_append_congr (ihl _ _) (ihr _ _)).trans (filter_fragments_comm l r (base + 1) q))
    have := l.width_pos
    simp
    omega
  | star e ih =>
    rw [slots, edgesOf_cons, fragment_star]
    change (ownEdges base (star e) ++ _).filter _ = _
    rw [ownEdges_star]
    refine Nfa.filter_append_congr (Nfa.filter_append_swap ?_) (ih _ _)
    have := e.width_pos
    simp
    omega
  | plus e ih =>
    rw [slots, edgesOf_cons, fragment_plus]
    exact Nfa.filter_append_congr rfl (ih _ _)

/-- The construction from slots never fails, and its automaton is the one placed by recursion. -/
theorem construct_eq_toNfa (e : Expr) : e.construct = .ok e.toNfa := by
  have htoNfa : e.toNfa = Nfa.ofEdges e.width (e.fragment 0) (e.width - 1) := by
    have hlast := e.last_eq 0
    rw [last] at hlast
    have hinner : (e.place 0 []).1 = e.width - 1 := by omega
    have := e.width_pos
    have hwidth : e.width - 1 + 1 = e.width := by omega
    change Nfa.ofEdges ((e.place 0 []).1 + 1) (e.fragment 0) (e.place 0 []).1 = _
    rw [hinner, hwidth]
  rw [Layout.construct_eq, htoNfa, Nfa.ofEdges_congr (e.filter_edgesOf 0 0)]

end Expr

end LexGen
