-- SUMMARY: The closures of the states of a nondeterministic automaton are exactly what silent edges lead to, by numbers and by names.
import Mathlib
import LexGen.Proofs.Assertions.Closures
import LexGen.Proofs.Nfa.Thompson
import LexGen.Proofs.State.Names

/-! # Closures

The closure of a state holds what zero or more silent edges lead to; the proper closure is what is
left of it without the state itself. A state on a cycle of silent edges leads to itself, so its proper
closure leaves out a state that one or more edges do reach. -/

namespace LexGen.Nfa

open Relation

variable {m : Nfa} {p q : Nat} {s t : State}

/-! ## States by their numbers -/

theorem mem_closure_singleton (hm : m.WellFormed) (hq : q < m.size) :
    p ∈ m.closure [q] ↔ m.SilentPath q p := by
  rw [mem_closure hm (within_singleton hq)]
  simp

theorem mem_properClosure (hm : m.WellFormed) (hq : q < m.size) :
    p ∈ m.properClosure q ↔ p ≠ q ∧ TransGen (fun a b => b ∈ m.silent a) q p := by
  rw [properClosure, List.mem_filter, mem_closure_singleton hm hq, decide_eq_true_eq, and_comm]
  refine and_congr_right fun hne => ?_
  rw [SilentPath, reflTransGen_iff_eq_or_transGen, or_iff_right hne]

theorem closure_subset (hm : m.WellFormed) (hq : q < m.size) (h : p ∈ m.closure [q]) :
    m.closure [p] ⊆ m.closure [q] := by
  have hp : p < m.size := List.mem_range.mp (List.mem_filter.mp h).1
  intro r hr
  have hqp := (mem_closure_singleton hm hq).mp h
  have hpr := (mem_closure_singleton hm hp).mp hr
  exact (mem_closure_singleton hm hq).mpr (hqp.trans hpr)

/-! ## States by their names -/

theorem mem_closureNamed (hm : m.WellFormed) (h : m.find? s = some q) :
    t ∈ m.closureNamed s ↔ ∃ p, m.SilentPath q p ∧ t = .numbered p := by
  simp only [closureNamed, h, List.mem_map, mem_closure_singleton hm (lt_of_find? h), eq_comm]

theorem closureNamed_of_find?_eq_none (h : m.find? s = none) : m.closureNamed s = [s] := by
  rw [closureNamed, h]

theorem closureNamed_subset (hm : m.WellFormed) (h : t ∈ m.closureNamed s) :
    m.closureNamed t ⊆ m.closureNamed s := by
  cases hs : m.find? s with
  | none =>
    rw [closureNamed_of_find?_eq_none hs, List.mem_singleton] at h
    rw [h]
    exact fun _ hr => hr
  | some q =>
    obtain ⟨p, hqp, rfl⟩ := (mem_closureNamed hm hs).mp h
    cases hp : m.find? (.numbered p) with
    | none =>
      rw [closureNamed_of_find?_eq_none hp]
      exact List.cons_subset.mpr ⟨h, List.nil_subset _⟩
    | some p' =>
      obtain rfl := eq_of_find?_numbered hp
      intro r hr
      obtain ⟨r, hpr, rfl⟩ := (mem_closureNamed hm hp).mp hr
      exact (mem_closureNamed hm hs).mpr ⟨r, hqp.trans hpr, rfl⟩

/-! ## Every automaton of an expression -/

/-- The closures of all states are exactly what silent edges lead to. -/
structure ExactClosures (m : Nfa) : Prop where
  /-- The shared worklist gives each state its proper closure. -/
  solved : ∃ closures, m.solveClosures = .ok closures ∧ closures.length = m.size ∧
    ∀ q, q < m.size → ∀ p, p ∈ closures.getD q [] ↔ p ∈ m.properClosure q
  proper : ∀ q, q < m.size → ∀ p,
    p ∈ m.properClosure q ↔ p ≠ q ∧ TransGen (fun a b => b ∈ m.silent a) q p
  closure : ∀ q, q < m.size → ∀ p, p ∈ m.closure [q] ↔ m.SilentPath q p
  named : ∀ s q, m.find? s = some q → ∀ t,
    t ∈ m.closureNamed s ↔ ∃ p, m.SilentPath q p ∧ t = .numbered p
  unknown : ∀ s, (∀ q, q < m.size → (State.numbered q == s) = false) → m.closureNamed s = [s]
  subset : ∀ q, q < m.size → ∀ p ∈ m.closure [q], m.closure [p] ⊆ m.closure [q]
  subset_named : ∀ s t, t ∈ m.closureNamed s → m.closureNamed t ⊆ m.closureNamed s

theorem exactClosures_toNfa (e : Expr) : e.toNfa.ExactClosures := by
  have hm := e.wellFormed_toNfa
  constructor
  case solved =>
    have hsolved := e.toNfa.solveClosures_eq
    refine ⟨_, hsolved, by simp, fun q hq p => ?_⟩
    rw [getD_closures hsolved hq, mem_walkedClosure hm, properClosure, List.mem_filter,
      mem_closure_singleton hm hq, decide_eq_true_eq, and_comm]
  case proper => exact fun q hq p => mem_properClosure hm hq
  case closure => exact fun q hq p => mem_closure_singleton hm hq
  case named => exact fun s q h t => mem_closureNamed hm h
  case unknown =>
    intro s hs
    refine closureNamed_of_find?_eq_none (Option.eq_none_iff_forall_ne_some.mpr fun q hq => ?_)
    have hbeq := beq_of_find? hq
    rw [hs q (lt_of_find? hq)] at hbeq
    cases hbeq
  case subset => exact fun q hq p => closure_subset hm hq
  case subset_named => exact fun s t => closureNamed_subset hm

/-- In a star of a star, `4` leads back to itself and is not in its proper closure. No state is named
`q`. -/
theorem exactClosures_toNfa_star :
    ∃ m : Nfa, m.ExactClosures ∧ m.properClosure 4 = [1, 2, 5] ∧
      TransGen (fun a b => b ∈ m.silent a) 4 4 ∧ m.SilentPath 4 2 ∧
      m.closureNamed (.ofLabel "q") = [.ofLabel "q"] := by
  have h := exactClosures_toNfa (.star (.star (.symbol 'a')))
  generalize hm : Expr.toNfa _ = m at h
  have hsize : m.size = 6 := by rw [← hm]; cbv
  have hproper : m.properClosure 4 = [1, 2, 5] := by rw [← hm]; cbv
  have hback : 4 ∈ m.silent 1 := by rw [← hm]; decide
  have hlt : 4 < m.size := by omega
  have hone := ((h.proper 4 hlt 1).mp (by simp [hproper])).2
  have htwo := ((h.proper 4 hlt 2).mp (by simp [hproper])).2
  refine ⟨m, h, hproper, hone.tail hback, htwo.to_reflTransGen, h.unknown _ fun q hq => ?_⟩
  rw [hsize] at hq
  interval_cases q <;> rfl

end LexGen.Nfa
