-- SUMMARY: The slots of an expression: one for each node, filled in passes that check every index, and what they hold in the end.
import Mathlib
import LexGen.Proofs.Assertions.Parts
import LexGen.Expr.Basic

/-! # Layout of an expression

The nodes of an expression are listed in slots, each in front of its operands, and the slots are then
filled in passes: with the numbers of the operands while the nodes are listed, with the sizes of the
blocks of states from the last slot to the first, with the first states of the blocks from the first
slot to the last. Each pass turns one description of the slots of a subtree into the next one,
whatever stands in front of these slots and behind them. -/

namespace LexGen

/-- One node of an expression, the numbers of its operands, and its block of states. -/
structure Slot where
  expr : Expr
  kids : List Nat
  base : Nat
  size : Nat

/-! ## The passes -/

namespace Expr

/-- The number of states of a node whose operands have `operands` states. -/
def widthOver (operands : Nat) : Expr → Nat
  | .epsilon => 1
  | .symbol _ | .empty => 2
  | .concat .. => operands
  | .union .. | .star _ | .plus _ => operands + 2

/-- The number of states in front of the first operand. -/
def inset : Expr → Nat
  | .concat .. => 0
  | _ => 1

end Expr

namespace Layout

/-- The slot with the given number. -/
def slot (slots : List Slot) (id : Nat) : Except Violation Slot :=
  match slots[id]? with
  | some s => .ok s
  | none => .error (.noSlot id)

/-- Changes the slot with the given number. -/
def modify (slots : List Slot) (id : Nat) (f : Slot → Slot) : Except Violation (List Slot) := do
  let s ← slot slots id
  return slots.set id (f s)

/-- Adds a node to the operands of its parent. -/
def adopt (slots : List Slot) (id : Nat) : Option Nat → Except Violation (List Slot)
  | none => .ok slots
  | some parent => modify slots parent fun s => { s with kids := s.kids ++ [id] }

/-- Adds a slot for each node of the trees on the stack, each node with the number of its parent. -/
def flatten (slots : List Slot) :
    (stack : List (Expr × Option Nat)) → Except Violation (List Slot)
  | [] => .ok slots
  | (e, parent) :: stack => do
    let id := slots.length
    let slots ← adopt slots id parent
    flatten (slots ++ [⟨e, [], 0, 0⟩]) (e.children.map (·, some id) ++ stack)
termination_by stack => Expr.sizes (stack.map (·.1))
decreasing_by
  have := Expr.sizes_children e
  have hmap (parent : Option Nat) : (e.children.map (·, parent)).map (·.1) = e.children := by
    rw [List.map_map]
    exact List.map_id _
  rw [List.map_append, hmap, List.map_cons, Expr.sizes_append, Expr.sizes]
  dsimp only
  omega

/-- Fills in the number of states of a node, given those of its operands. -/
def sizeSlot (slots : List Slot) (id : Nat) : Except Violation (List Slot) := do
  let s ← slot slots id
  let kids ← s.kids.mapM (slot slots)
  modify slots id fun s => { s with size := s.expr.widthOver (kids.map (·.size)).sum }

/-- Places the blocks of some operands one behind the other. -/
def placeKids (slots : List Slot) (next : Nat) : List Nat → Except Violation (List Slot)
  | [] => .ok slots
  | kid :: kids => do
    let slots ← modify slots kid fun s => { s with base := next }
    let s ← slot slots kid
    placeKids slots (next + s.size) kids

/-- Places the blocks of the operands of a node inside its own block. -/
def placeSlot (slots : List Slot) (id : Nat) : Except Violation (List Slot) := do
  let s ← slot slots id
  placeKids slots (s.base + s.expr.inset) s.kids

/-- Fills in the blocks of states. -/
def layout (slots : List Slot) : Except Violation (List Slot) := do
  let slots ← (List.range slots.length).reverse.foldlM sizeSlot slots
  (List.range slots.length).foldlM placeSlot slots

end Layout

/-! ## The slots of a tree -/

namespace Expr

/-- The number of states of an expression. -/
def width : Expr → Nat
  | .epsilon => 1
  | .symbol _ | .empty => 2
  | .concat l r => l.width + r.width
  | .union l r => l.width + r.width + 2
  | .star e | .plus e => e.width + 2

/-- The numbers of the roots of some trees that are listed from number `id` on. -/
def rootIds (id : Nat) : List Expr → List Nat
  | [] => []
  | e :: es => id :: rootIds (id + e.size) es

/-- The slot of the root of a tree that is listed from number `id` on. -/
def root (id base : Nat) (e : Expr) : Slot :=
  ⟨e, rootIds (id + 1) e.children, base, e.width⟩

/-- The slots of a tree that is listed from number `id` on, with its states from `base` on. -/
def slots (id base : Nat) (e : Expr) : List Slot :=
  e.root id base :: match e with
    | .symbol _ | .epsilon | .empty => []
    | .star k | .plus k => k.slots (id + 1) (base + 1)
    | .concat l r => l.slots (id + 1) base ++ r.slots (id + 1 + l.size) (base + l.width)
    | .union l r => l.slots (id + 1) (base + 1) ++ r.slots (id + 1 + l.size) (base + 1 + l.width)

/-- The slots of some trees, one behind the other. -/
def slotsOf (id base : Nat) : List Expr → List Slot
  | [] => []
  | e :: es => e.slots id base ++ slotsOf (id + e.size) (base + e.width) es

/-- The slots of the roots of some trees, one behind the other. -/
def rootsOf (id base : Nat) : List Expr → List Slot
  | [] => []
  | e :: es => e.root id base :: rootsOf (id + e.size) (base + e.width) es

theorem slots_eq (id base : Nat) (e : Expr) :
    e.slots id base = e.root id base :: slotsOf (id + 1) (base + e.inset) e.children := by
  cases e <;> simp [slots, slotsOf, children, inset]

theorem width_eq (e : Expr) : e.width = e.widthOver (e.children.map width).sum := by
  cases e <;> simp [width, widthOver, children]

theorem width_pos (e : Expr) : 0 < e.width := by
  induction e with
  | symbol _ | epsilon | empty => simp [width]
  | concat l r ihl ihr | union l r ihl ihr =>
    rw [width]
    omega
  | star e ih | plus e ih =>
    rw [width]
    omega

theorem size_eq (e : Expr) : e.size = sizes e.children + 1 :=
  (sizes_children e).symm

@[elab_as_elim]
theorem children_induction {motive : Expr → Prop}
    (node : ∀ e : Expr, (∀ k ∈ e.children, motive k) → motive e) (e : Expr) : motive e := by
  induction e with
  | symbol _ | epsilon | empty => exact node _ (by simp [children])
  | concat l r ihl ihr | union l r ihl ihr => exact node _ (by simp [children, ihl, ihr])
  | star e ih | plus e ih => exact node _ (by simp [children, ih])

theorem length_slots (id base : Nat) (e : Expr) : (e.slots id base).length = e.size := by
  induction e generalizing id base with
  | symbol _ | epsilon | empty => rfl
  | concat l r ihl ihr | union l r ihl ihr => simp [slots, size, ihl, ihr]
  | star e ih | plus e ih => simp [slots, size, ih]

theorem length_slotsOf (id base : Nat) (es : List Expr) :
    (slotsOf id base es).length = sizes es := by
  induction es generalizing id base with
  | nil => rfl
  | cons e es ih => simp [slotsOf, sizes, length_slots, ih]

end Expr

/-! ## Slots in a context -/

namespace Layout

variable {before after : List Slot} {s : Slot} {id base : Nat} {e : Expr} {es : List Expr}

theorem slot_append (hid : before.length = id) : slot (before ++ s :: after) id = .ok s := by
  subst hid
  simp [slot]

theorem modify_append (f : Slot → Slot) (hid : before.length = id) :
    modify (before ++ s :: after) id f = .ok (before ++ f s :: after) := by
  rw [modify, slot_append hid]
  subst hid
  simp [bind, Except.bind, pure, Except.pure]

/-! ## Listing the nodes -/

/-- A slot as it is listed. -/
def bare (s : Slot) : Slot :=
  ⟨s.expr, s.kids, 0, 0⟩

theorem length_modify {slots slots' : List Slot} {f : Slot → Slot}
    (h : modify slots id f = .ok slots') : slots'.length = slots.length := by
  obtain ⟨s, _, h⟩ := exists_of_bind_eq_ok h
  cases h
  exact List.length_set

theorem length_adopt {slots slots' : List Slot} {parent : Option Nat}
    (h : adopt slots id parent = .ok slots') : slots'.length = slots.length := by
  cases parent with
  | none =>
    cases h
    rfl
  | some parent => exact length_modify h

/-- A tree on top of the stack is listed with all its nodes. -/
def Listed (e : Expr) : Prop :=
  ∀ (base : Nat) (slots slots' : List Slot) (parent : Option Nat) (stack : List (Expr × Option Nat)),
    adopt slots slots.length parent = .ok slots' →
      flatten slots ((e, parent) :: stack) =
        flatten (slots' ++ (e.slots slots.length base).map bare) stack

/-- The roots of some trees are added to the operands of their parent, and all their nodes to the
slots. -/
theorem flatten_children {kids : List Nat} {done : List Slot} {stack : List (Expr × Option Nat)}
    (base : Nat) (h : ∀ k ∈ es, Listed k) (hid : before.length + 1 + done.length = id) :
    flatten (before ++ ⟨e, kids, 0, 0⟩ :: done) (es.map (·, some before.length) ++ stack) =
      flatten (before ++ ⟨e, kids ++ Expr.rootIds id es, 0, 0⟩ ::
        (done ++ (Expr.slotsOf id base es).map bare)) stack := by
  induction es generalizing id base kids done with
  | nil => simp [Expr.rootIds, Expr.slotsOf]
  | cons k es ih =>
    obtain ⟨hk, hes⟩ := List.forall_mem_cons.mp h
    have hlength : (before ++ ⟨e, kids, 0, 0⟩ :: done).length = id := by
      rw [List.length_append, List.length_cons]
      omega
    have hadopt : adopt (before ++ ⟨e, kids, 0, 0⟩ :: done)
        (before ++ ⟨e, kids, 0, 0⟩ :: done).length (some before.length) =
          .ok (before ++ ⟨e, kids ++ [id], 0, 0⟩ :: done) := by
      rw [hlength]
      exact modify_append _ rfl
    have hlist := hk base _ _ _ (es.map (·, some before.length) ++ stack) hadopt
    have hnext : before.length + 1 + (done ++ (k.slots id base).map bare).length = id + k.size := by
      rw [List.length_append, List.length_map, Expr.length_slots]
      omega
    rw [List.map_cons, List.cons_append, hlist, hlength, List.append_assoc, List.cons_append,
      ih (base + k.width) hes hnext]
    simp [Expr.rootIds, Expr.slotsOf]

theorem listed (e : Expr) : Listed e := by
  induction e using Expr.children_induction with
  | node e ih =>
    intro base slots slots' parent stack hadopt
    have hlength := length_adopt hadopt
    have hroot : e.children.map (·, some slots.length) = e.children.map (·, some slots'.length) := by
      rw [hlength]
    rw [flatten, hadopt]
    change flatten (slots' ++ [⟨e, [], 0, 0⟩]) _ = _
    rw [hroot, flatten_children (base + e.inset) ih rfl, Expr.slots_eq, hlength]
    rfl

theorem flatten_eq (e : Expr) : flatten [] [(e, none)] = .ok ((e.slots 0 0).map bare) := by
  rw [listed e 0 [] [] none [] rfl, flatten]
  rfl

/-! ## Sizes of blocks -/

/-- A slot before its block is placed. -/
def unplaced (s : Slot) : Slot :=
  { s with base := 0 }

/-- The numbers of the roots of some trees lead to these roots. -/
theorem slot_rootIds (f : Slot → Slot) (base : Nat) (es : List Expr) (after : List Slot)
    (hid : before.length = id) :
    List.Forall₂
      (fun k s => slot (before ++ ((Expr.slotsOf id base es).map f ++ after)) k = .ok (f s))
      (Expr.rootIds id es) (Expr.rootsOf id base es) := by
  induction es generalizing id base before with
  | nil => exact .nil
  | cons e es ih =>
    refine .cons ?_ ?_
    · rw [Expr.slotsOf, Expr.slots_eq, List.cons_append, List.map_cons, List.cons_append]
      exact slot_append hid
    · have hnext : (before ++ (e.slots id base).map f).length = id + e.size := by
        rw [List.length_append, List.length_map, Expr.length_slots, hid]
      have hrest := ih (base + e.width) hnext
      rw [Expr.slotsOf, List.map_append]
      simpa only [List.append_assoc] using hrest

theorem size_rootsOf : (Expr.rootsOf id base es).map (·.size) = es.map Expr.width := by
  induction es generalizing id base with
  | nil => rfl
  | cons e es ih => exact congrArg (e.width :: ·) ih

/-- The sizes of the blocks of a tree are filled in, last slot first. -/
def Sized (e : Expr) : Prop :=
  ∀ (id base : Nat) (before after : List Slot), before.length = id →
    (List.range' id e.size).reverse.foldlM sizeSlot
        (before ++ ((e.slots id base).map bare ++ after)) =
      .ok (before ++ ((e.slots id base).map unplaced ++ after))

theorem sized_children (base : Nat) (after : List Slot) (h : ∀ k ∈ es, Sized k)
    (hid : before.length = id) :
    (List.range' id (Expr.sizes es)).reverse.foldlM sizeSlot
        (before ++ ((Expr.slotsOf id base es).map bare ++ after)) =
      .ok (before ++ ((Expr.slotsOf id base es).map unplaced ++ after)) := by
  induction es generalizing id base before after with
  | nil => rfl
  | cons k es ih =>
    obtain ⟨hk, hes⟩ := List.forall_mem_cons.mp h
    have hnext : (before ++ (k.slots id base).map bare).length = id + k.size := by
      rw [List.length_append, List.length_map, Expr.length_slots, hid]
    -- From the last slot to the first, the trees behind `k` are done before `k`.
    have hrest := ih (base + k.width) after hes hnext
    rw [List.append_assoc, List.append_assoc] at hrest
    rw [Expr.sizes, ← List.range'_append_1, List.reverse_append, List.foldlM_append, Expr.slotsOf,
      List.map_append, List.map_append, List.append_assoc, List.append_assoc, hrest, ok_bind]
    exact hk id base before _ hid

theorem sizeSlot_root (hid : before.length = id) :
    sizeSlot (before ++ bare (e.root id base) ::
        ((Expr.slotsOf (id + 1) (base + e.inset) e.children).map unplaced ++ after)) id =
      .ok (before ++ unplaced (e.root id base) ::
        ((Expr.slotsOf (id + 1) (base + e.inset) e.children).map unplaced ++ after)) := by
  have hnext : (before ++ [bare (e.root id base)]).length = id + 1 := by
    rw [List.length_append, hid, List.length_singleton]
  have hkids := slot_rootIds unplaced (base + e.inset) e.children after hnext
  simp only [List.append_assoc, List.singleton_append] at hkids
  have hread := mapM_eq_ok.mpr (List.forall₂_map_right_iff.mpr hkids)
  have hsizes : ((Expr.rootsOf (id + 1) (base + e.inset) e.children).map unplaced).map (·.size) =
      e.children.map Expr.width := by
    rw [List.map_map, ← size_rootsOf]
    rfl
  have hroot : (bare (e.root id base)).kids = Expr.rootIds (id + 1) e.children := rfl
  rw [sizeSlot, slot_append hid, ok_bind, hroot, hread, ok_bind, modify_append _ hid, hsizes]
  simp only [bare, unplaced, Expr.root, ← Expr.width_eq]

theorem sized (e : Expr) : Sized e := by
  induction e using Expr.children_induction with
  | node e ih =>
    intro id base before after hid
    have hnext : (before ++ [bare (e.root id base)]).length = id + 1 := by
      rw [List.length_append, hid, List.length_singleton]
    have hkids := sized_children (base + e.inset) after ih hnext
    simp only [List.append_assoc, List.singleton_append] at hkids
    rw [Expr.size_eq, List.range'_succ, List.reverse_cons, List.foldlM_append, Expr.slots_eq,
      List.map_cons, List.map_cons, List.cons_append, hkids, ok_bind, List.foldlM_cons,
      sizeSlot_root hid]
    rfl

/-! ## Places of blocks -/

/-- The slots of a tree of which only the block of the root is placed. -/
def rooted (id base : Nat) (e : Expr) : List Slot :=
  e.root id base :: (Expr.slotsOf (id + 1) (base + e.inset) e.children).map unplaced

/-- The slots of some trees of which only the blocks of the roots are placed. -/
def rootedOf (id base : Nat) : List Expr → List Slot
  | [] => []
  | e :: es => rooted id base e ++ rootedOf (id + e.size) (base + e.width) es

theorem length_rooted : (rooted id base e).length = e.size := by
  rw [rooted, List.length_cons, List.length_map, Expr.length_slotsOf, Expr.size_eq]

theorem placeKids_rootIds (base : Nat) (es : List Expr) (after : List Slot)
    (hid : before.length = id) :
    placeKids (before ++ ((Expr.slotsOf id base es).map unplaced ++ after)) base
        (Expr.rootIds id es) =
      .ok (before ++ (rootedOf id base es ++ after)) := by
  induction es generalizing id base before with
  | nil => rfl
  | cons e es ih =>
    have hnext : (before ++ rooted id base e).length = id + e.size := by
      rw [List.length_append, length_rooted, hid]
    have hrest := ih (base + e.width) hnext
    have hroot : { unplaced (e.root id base) with base := base } = e.root id base := rfl
    simp only [rooted, List.append_assoc, List.cons_append] at hrest
    rw [Expr.slotsOf, Expr.slots_eq, List.cons_append, List.map_cons, List.map_append,
      List.cons_append, List.append_assoc, Expr.rootIds, placeKids, modify_append _ hid, ok_bind,
      hroot, slot_append hid, ok_bind, rootedOf, rooted, List.append_assoc, List.cons_append]
    exact hrest

/-- The blocks of a tree are placed inside the block of its root, first slot first. -/
def Placed (e : Expr) : Prop :=
  ∀ (id base : Nat) (before after : List Slot), before.length = id →
    (List.range' id e.size).foldlM placeSlot (before ++ (rooted id base e ++ after)) =
      .ok (before ++ (e.slots id base ++ after))

theorem placed_children (base : Nat) (after : List Slot) (h : ∀ k ∈ es, Placed k)
    (hid : before.length = id) :
    (List.range' id (Expr.sizes es)).foldlM placeSlot (before ++ (rootedOf id base es ++ after)) =
      .ok (before ++ (Expr.slotsOf id base es ++ after)) := by
  induction es generalizing id base before with
  | nil => rfl
  | cons k es ih =>
    obtain ⟨hk, hes⟩ := List.forall_mem_cons.mp h
    have hnext : (before ++ k.slots id base).length = id + k.size := by
      rw [List.length_append, Expr.length_slots, hid]
    have hrest := ih (base + k.width) hes hnext
    rw [List.append_assoc, List.append_assoc] at hrest
    rw [Expr.sizes, ← List.range'_append_1, List.foldlM_append, rootedOf, List.append_assoc,
      hk id base before _ hid, ok_bind, hrest, Expr.slotsOf, List.append_assoc]

theorem placed (e : Expr) : Placed e := by
  induction e using Expr.children_induction with
  | node e ih =>
    intro id base before after hid
    have hnext : (before ++ [e.root id base]).length = id + 1 := by
      rw [List.length_append, hid, List.length_singleton]
    have hroots := placeKids_rootIds (base + e.inset) e.children after hnext
    have hkids := placed_children (base + e.inset) after ih hnext
    simp only [List.append_assoc, List.singleton_append] at hroots hkids
    have hfields : (e.root id base).base = base ∧ (e.root id base).expr = e ∧
        (e.root id base).kids = Expr.rootIds (id + 1) e.children := ⟨rfl, rfl, rfl⟩
    rw [Expr.size_eq, List.range'_succ, List.foldlM_cons, rooted, List.cons_append, placeSlot,
      slot_append hid, ok_bind, hfields.1, hfields.2.1, hfields.2.2, hroots, ok_bind, hkids,
      Expr.slots_eq, List.cons_append]

theorem layout_eq (e : Expr) : layout ((e.slots 0 0).map bare) = .ok (e.slots 0 0) := by
  have hsized := sized e 0 0 [] [] rfl
  have hplaced := placed e 0 0 [] [] rfl
  have hroot : (e.slots 0 0).map unplaced = rooted 0 0 e := by
    rw [Expr.slots_eq, List.map_cons]
    rfl
  simp only [List.nil_append, List.append_nil] at hsized hplaced
  rw [layout, List.length_map, Expr.length_slots, List.range_eq_range', hsized, ok_bind,
    List.length_map, Expr.length_slots, List.range_eq_range', hroot, hplaced]

end Layout

end LexGen
