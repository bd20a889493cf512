-- SUMMARY: The loop of the subset construction: every number is put on the stack once and taken off it once, no check fails, and the loop ends.
import Mathlib
import LexGen.Proofs.Assertions.Determinization

/-! # The turns of the search

Each turn of the loop takes one number off the stack and puts those of the new sets on it. The sets
are numbered as they are found, so the numbers that were put on the stack are always an initial segment
of the natural numbers, and a number is either on the stack or was taken off it. A set is a sublist of
the states, so only finitely many can be found. -/

namespace LexGen

/-! ## The number of sets -/

theorem length_sublists {α : Type} (as : List α) : (sublists as).length = 2 ^ as.length := by
  induction as with
  | nil => rfl
  | cons a as ih =>
    rw [sublists, List.length_append, List.length_map, ih, List.length_cons, Nat.pow_succ, Nat.mul_two]

namespace Nfa

variable {m : Nfa} {alphabet : List Char} {root : List Nat} {found work : List (List Nat)}

theorem closure_mem_sublists (m : Nfa) (qs : List Nat) :
    m.closure qs ∈ sublists (List.range m.size) :=
  filter_mem_sublists _ _

theorem Search.subset_sublists (h : m.Search alphabet root found work)
    (hroot : root ∈ sublists (List.range m.size)) : found ⊆ sublists (List.range m.size) := by
  intro s hs
  rcases h.origin s hs with rfl | ⟨qs, -, hsucc⟩
  · exact hroot
  · obtain ⟨-, c, -, rfl⟩ := mem_successors.mp hsucc
    exact m.closure_mem_sublists _

theorem Search.length_found_le (h : m.Search alphabet root found work)
    (hroot : root ∈ sublists (List.range m.size)) : found.length ≤ 2 ^ m.size := by
  have hle := (h.nodup.subperm (h.subset_sublists hroot)).length_le
  rwa [length_sublists, List.length_range] at hle

end Nfa

/-! ## Turns -/

namespace Exploration

variable {m : Nfa} {closures : List (List Nat)} {x y z : Exploration} {id : Nat}
  {new popped pushed : List Nat}

/-- A turn takes `id` off the stack, and puts the numbers in `new` on it one by one. -/
inductive Turn (m : Nfa) (closures : List (List Nat)) (x : Exploration) (id : Nat) (new : List Nat)
    (y : Exploration) : Prop
  | intro {stack members : List Nat} (hpop : x.stack = id :: stack)
      (horigin : x.origin id = .ok members)
      (hvisit : m.alphabet.foldlM (visit m closures id members) { x with stack } = .ok y)
      (hpush : y.stack = new.reverse ++ stack)

/-- Some turns, the numbers they take off the stack, and those they put on it. -/
inductive Run (m : Nfa) (closures : List (List Nat)) :
    Exploration → List Nat → List Nat → Exploration → Prop
  | refl (x : Exploration) : Run m closures x [] [] x
  | step {x y z : Exploration} {id : Nat} {new popped pushed : List Nat}
      (hturn : Turn m closures x id new y) (hrun : Run m closures y popped pushed z) :
      Run m closures x (id :: popped) (new ++ pushed) z

/-- No two transitions of a table have the same source and the same label. -/
def Keyed (table : List (Edge Nat Char)) : Prop :=
  table.Pairwise fun e e' => e.source = e'.source → e.label ≠ e'.label

theorem Keyed.append {table : List (Edge Nat Char)} {e : Edge Nat Char} (h : Keyed table)
    (he : ∀ e' ∈ table, e'.source = e.source → e'.label ≠ e.label) : Keyed (table ++ [e]) := by
  refine List.pairwise_append.mpr ⟨h, List.pairwise_singleton _ _, fun e' he' e'' he'' => ?_⟩
  obtain rfl := List.mem_singleton.mp he''
  exact he e' he'

theorem Keyed.visit {members : List Nat} {c : Char} (h : Keyed x.table)
    (hvisit : x.visit m closures id members c = .ok y) : Keyed y.table := by
  obtain ⟨-, rfl⟩ | ⟨hlabel, ⟨_, rfl⟩ | ⟨_, -, rfl⟩⟩ := visit_cases hvisit
  · exact h
  · exact h.append hlabel
  · exact h.append hlabel

namespace Turn

theorem pending_lt (h : Turn m closures x id new y) : y.pending m < x.pending m := by
  obtain ⟨hpop, -, hvisit, -⟩ := h
  refine Nat.lt_of_le_of_lt (pending_foldlM_le hvisit) ?_
  simp [pending, hpop]

theorem explore_eq (h : Turn m closures x id new y) :
    x.explore m closures = y.explore m closures := by
  obtain ⟨hpop, horigin, hvisit, -⟩ := h
  exact explore_cons hpop horigin hvisit

theorem keyed (h : Turn m closures x id new y) (hkeyed : Keyed x.table) : Keyed y.table := by
  obtain ⟨-, -, hvisit, -⟩ := h
  exact foldlM_related (R := fun x y : Exploration => Keyed x.table → Keyed y.table) (fun _ h => h)
    (fun _ _ _ h h' hkeyed => h' (h hkeyed)) (fun _ _ _ h hkeyed => hkeyed.visit h) hvisit hkeyed

theorem perm (h : Turn m closures x id new y) : (id :: y.stack).Perm (x.stack ++ new) := by
  obtain ⟨hpop, -, -, hpush⟩ := h
  rw [hpop, hpush, List.cons_append]
  exact (((List.reverse_perm new).append_right _).trans List.perm_append_comm).cons id

end Turn

namespace Run

theorem explore_eq (h : Run m closures x popped pushed y) :
    x.explore m closures = y.explore m closures := by
  induction h with
  | refl => rfl
  | step hturn _ ih => exact hturn.explore_eq.trans ih

theorem keyed (h : Run m closures x popped pushed y) (hkeyed : Keyed x.table) : Keyed y.table := by
  induction h with
  | refl => exact hkeyed
  | step hturn _ ih => exact ih (hturn.keyed hkeyed)

/-- What was taken off the stack or is on it was on it at the beginning or was put on it. -/
theorem perm (h : Run m closures x popped pushed y) :
    (popped ++ y.stack).Perm (x.stack ++ pushed) := by
  induction h with
  | refl => rw [List.nil_append, List.append_nil]
  | step hturn _ ih =>
    rw [← List.append_assoc]
    exact (ih.cons _).trans (hturn.perm.append_right _)

end Run

/-! ## Turns of a search -/

/-- The loop has found what a search from `root` has found. -/
def Stands (m : Nfa) (root : List Nat) (x : Exploration) : Prop :=
  ∃ found work table stack, Standing m root found work table stack ∧ x = ofFound m found table stack

namespace Stands

variable {root : List Nat}

theorem exists_turn (hadvance : ∀ qs c, m.advance closures qs c = m.stepSet qs c)
    (h : x.Stands m root) (hstack : x.stack ≠ []) : ∃ id new y, Turn m closures x id new y := by
  obtain ⟨found, work, table, stack, h, rfl⟩ := h
  cases stack with
  | nil => exact absurd rfl hstack
  | cons id stack =>
    obtain ⟨qs, work, hid, -, rfl⟩ := List.forall₂_cons_left_iff.mp h.numbered
    exact ⟨id, _, _, .intro rfl (origin_ofFound hid) (h.foldlM_visit_eq hadvance) rfl⟩

/-- A turn of a search numbers the sets that it finds with the next numbers. -/
theorem turn (hadvance : ∀ qs c, m.advance closures qs c = m.stepSet qs c) (h : x.Stands m root)
    (hturn : Turn m closures x id new y) : y.Stands m root ∧
      y.found.length = x.found.length + new.length ∧
      new = List.range' x.found.length new.length := by
  obtain ⟨found, work, table, stack, h, rfl⟩ := h
  obtain @⟨stack', members, hpop, horigin, hvisit, hpush⟩ := hturn
  obtain rfl : stack = id :: stack' := hpop
  obtain ⟨qs, work, hid, -, rfl⟩ := List.forall₂_cons_left_iff.mp h.numbered
  obtain rfl := Except.ok.inj ((origin_ofFound hid).symm.trans horigin)
  obtain rfl := Except.ok.inj ((h.foldlM_visit_eq hadvance).symm.trans hvisit)
  have hnew : new = List.range' found.length (m.newSuccessors m.alphabet found qs).length :=
    (List.reverse_injective (List.append_cancel_right hpush)).symm
  have hlength : new.length = (m.newSuccessors m.alphabet found qs).length := by
    rw [hnew, List.length_range']
  refine ⟨⟨_, _, _, _, h.step, rfl⟩, ?_, ?_⟩
  · simp [ofFound, hlength]
  · rw [hlength]
    simpa [ofFound] using hnew

theorem run (hadvance : ∀ qs c, m.advance closures qs c = m.stepSet qs c) (h : x.Stands m root)
    (hrun : Run m closures x popped pushed y) : y.Stands m root ∧
      y.found.length = x.found.length + pushed.length ∧
      pushed = List.range' x.found.length pushed.length := by
  induction hrun with
  | refl => exact ⟨h, rfl, rfl⟩
  | step hturn _ ih =>
    obtain ⟨hstands, hfound, hnew⟩ := h.turn hadvance hturn
    obtain ⟨hstands, hfound', hpushed⟩ := ih hstands
    refine ⟨hstands, ?_, ?_⟩
    · rw [hfound', hfound, List.length_append, Nat.add_assoc]
    · rw [List.length_append, ← List.range'_append_1, ← hnew, ← hfound, ← hpushed]

/-- The turns go on until the stack is empty. -/
theorem exists_run (hadvance : ∀ qs c, m.advance closures qs c = m.stepSet qs c)
    (h : x.Stands m root) : ∃ popped pushed y, Run m closures x popped pushed y ∧ y.stack = [] := by
  induction hpending : x.pending m using Nat.strongRecOn generalizing x with
  | ind n ih =>
    by_cases hstack : x.stack = []
    · exact ⟨_, _, _, .refl x, hstack⟩
    · obtain ⟨id, new, y, hturn⟩ := h.exists_turn hadvance hstack
      obtain ⟨popped, pushed, z, hrun, hempty⟩ :=
        ih _ (hpending ▸ hturn.pending_lt) (h.turn hadvance hturn).1 rfl
      exact ⟨_, _, z, .step hturn hrun, hempty⟩

theorem nodup_found (h : x.Stands m root) : x.found.Nodup := by
  obtain ⟨found, _, _, _, h, rfl⟩ := h
  exact h.search.nodup.map fun _ _ => Vertex.composed.inj

theorem length_found_le (h : x.Stands m root) (hroot : root ∈ sublists (List.range m.size)) :
    x.found.length ≤ 2 ^ m.size := by
  obtain ⟨found, _, _, _, h, rfl⟩ := h
  rw [ofFound, List.length_map]
  exact h.search.length_found_le hroot

end Stands

/-! ## The loop of the construction -/

/-- What holds at `x` when the numbers in `pushed` were put on the stack, in this order, and those in
`popped` were taken off it. -/
structure Orderly (m : Nfa) (closures : List (List Nat)) (pushed popped : List Nat)
    (x : Exploration) : Prop where
  /-- Every number was put on the stack, and none of them twice. -/
  pushed_eq : pushed = List.range x.found.length
  /-- Every number was taken off the stack or is on it, and none of them twice. -/
  popped_perm : (popped ++ x.stack).Perm pushed
  nodup_found : x.found.Nodup
  length_found_le : x.found.length ≤ 2 ^ m.size
  keyed : Keyed x.table
  /-- No check fails in the next turn. -/
  next : x.stack ≠ [] → ∃ id new y, Turn m closures x id new y
  pending_lt : ∀ id new y, Turn m closures x id new y → y.pending m < x.pending m

theorem stands_initial (m : Nfa) : (ofFound m [m.initial] [] [0]).Stands m m.initial :=
  ⟨_, _, _, _, m.standing_initial, rfl⟩

theorem orderly (hadvance : ∀ qs c, m.advance closures qs c = m.stepSet qs c)
    (hrun : Run m closures (ofFound m [m.initial] [] [0]) popped pushed y) :
    Orderly m closures (0 :: pushed) popped y := by
  obtain ⟨hstands, hlength, hpushed⟩ := (stands_initial m).run hadvance hrun
  have hfound : (ofFound m [m.initial] [] [0]).found.length = 1 := rfl
  rw [hfound] at hlength hpushed
  constructor
  case pushed_eq =>
    rw [hlength, List.range_eq_range', Nat.add_comm, List.range'_succ, Nat.zero_add, ← hpushed]
  case popped_perm => exact hrun.perm
  case nodup_found => exact hstands.nodup_found
  case length_found_le => exact hstands.length_found_le (m.closure_mem_sublists [0])
  case keyed => exact hrun.keyed .nil
  case next => exact hstands.exists_turn hadvance
  case pending_lt => exact fun _ _ _ hturn => hturn.pending_lt

/-- The loop of the subset construction of an expression ends, and no check fails in it. On its way
each number is put on the stack once and taken off it at most once, and at the end each was taken
off. -/
theorem explore_orderly (e : Expr) : ∃ closures x start,
    e.toNfa.solveClosures = .ok closures ∧
    intern e.toNfa ⟨[], [], [], []⟩ (e.toNfa.closureOf closures 0) = .ok (x, start, true) ∧
    (∀ popped pushed y, Run e.toNfa closures { x with stack := [start] } popped pushed y →
      Orderly e.toNfa closures (start :: pushed) popped y) ∧
    ∃ popped pushed y, Run e.toNfa closures { x with stack := [start] } popped pushed y ∧
      y.stack = [] ∧ popped.Perm (List.range y.found.length) ∧
      explore e.toNfa closures { x with stack := [start] } = .ok y := by
  have hm := e.wellFormed_toNfa
  have hclosures := e.toNfa.solveClosures_eq
  have hadvance := Nfa.advance_eq hm hclosures
  refine ⟨_, ofFound e.toNfa [e.toNfa.initial] [] [], 0, hclosures,
    Nfa.intern_closureOf hm hclosures, fun _ _ _ => orderly hadvance, ?_⟩
  obtain ⟨popped, pushed, y, hrun, hempty⟩ := (stands_initial e.toNfa).exists_run hadvance
  have hdone := orderly hadvance hrun
  have hperm : (popped ++ []).Perm (0 :: pushed) := hempty ▸ hdone.popped_perm
  rw [List.append_nil, hdone.pushed_eq] at hperm
  exact ⟨popped, pushed, y, hrun, hempty, hperm, hrun.explore_eq.trans (explore_nil y hempty)⟩

end Exploration

end LexGen
