-- SUMMARY: The closures of a nondeterministic automaton, all from one worklist: it is empty whenever a walk begins, and the sets are those of the simulation.
import Mathlib.Tactic.Common
import LexGen.Proofs.Assertions.Parts
import LexGen.Proofs.Nfa.Path

/-! # Closures from a shared worklist

The closures of all states are found with the same worklist. A walk may begin only when the worklist
is empty; since a walk ends only then, it always is. From the closures of single states, the sets of
the simulation are put together. -/

namespace LexGen

open Relation

/-! ## The worklist -/

namespace Worklist

variable {next : Nat → List Nat} {fresh work : List Nat}

/-- Puts the roots of a walk on the worklist. -/
def init (left roots : List Nat) : Except Violation (List Nat) :=
  if left.isEmpty then .ok roots else .error .leftOver

/-- Walks from the nodes on the worklist. Answers the nodes of `fresh` that the walk meets, and what
it leaves on the worklist. -/
def drain (next : Nat → List Nat) (fresh : List Nat) : (work : List Nat) → List Nat × List Nat
  | [] => ([], [])
  | q :: work =>
    if fresh.any (· == q) then
      let (seen, left) := drain next (Graph.without q fresh) (next q ++ work)
      (q :: seen, left)
    else drain next fresh work
termination_by work => (fresh.length, work.length)
decreasing_by
  · exact Prod.Lex.left _ _ (Graph.length_without_lt ‹_›)
  · exact Prod.Lex.right _ (by simp)

theorem drain_eq : drain next fresh work = (Graph.walk next fresh work, []) := by
  fun_induction Graph.walk next fresh work with
  | case1 => rw [drain]
  | case2 fresh q work hq ih => rw [drain, if_pos hq, ih]
  | case3 fresh q work hq ih => rw [drain, if_neg hq, ih]

end Worklist

/-! ## Closures -/

namespace Nfa

variable {m : Nfa} {closures : List (List Nat)} {p q : Nat}

/-- The proper closures of some states, when `left` is still on the worklist. -/
def closuresFrom (m : Nfa) (left : List Nat) : (qs : List Nat) → Except Violation (List (List Nat))
  | [] => return []
  | q :: qs => do
    let work ← Worklist.init left (m.silent q)
    let (seen, left) := Worklist.drain m.silent (List.range m.size) work
    return seen.filter (· ≠ q) :: (← closuresFrom m left qs)

/-- The proper closures of all states. -/
def solveClosures (m : Nfa) : Except Violation (List (List Nat)) :=
  m.closuresFrom [] (List.range m.size)

/-- Whether a state is another one or in its proper closure. -/
def reached (closures : List (List Nat)) (q p : Nat) : Bool :=
  p == q || (closures.getD q []).contains p

/-- The closure of a state. -/
def closureOf (m : Nfa) (closures : List (List Nat)) (q : Nat) : List Nat :=
  (List.range m.size).filter (reached closures q)

/-- The states that an edge reading `c`, followed by silent ones, leads to from a state in `qs`. -/
def advance (m : Nfa) (closures : List (List Nat)) (qs : List Nat) (c : Char) : List Nat :=
  (List.range m.size).filter fun p => (qs.flatMap (m.targets · c)).any (reached closures · p)

/-- The states met by a walk from the silent edges of a state, without the state itself. -/
def walkedClosure (m : Nfa) (q : Nat) : List Nat :=
  (Graph.walk m.silent (List.range m.size) (m.silent q)).filter (· ≠ q)

theorem closuresFrom_nil (m : Nfa) (qs : List Nat) :
    m.closuresFrom [] qs = .ok (qs.map m.walkedClosure) := by
  induction qs with
  | nil => rfl
  | cons q qs ih =>
    have hinit : Worklist.init [] (m.silent q) = .ok (m.silent q) := rfl
    rw [closuresFrom, hinit, ok_bind, Worklist.drain_eq]
    dsimp only
    rw [ih]
    rfl

theorem solveClosures_eq (m : Nfa) :
    m.solveClosures = .ok ((List.range m.size).map m.walkedClosure) :=
  m.closuresFrom_nil _

/-! ## Sets of the simulation -/

theorem mem_walkedClosure (hm : m.WellFormed) :
    p ∈ m.walkedClosure q ↔ p ≠ q ∧ m.SilentPath q p := by
  rw [walkedClosure, List.mem_filter, decide_eq_true_eq, Graph.mem_walk, and_comm]
  refine and_congr_right fun hne => ?_
  constructor
  · intro ⟨r, hr, h⟩
    exact .head hr ((Graph.reachesIn_iff hm.mem_range_of_silent).mp h).2
  · intro h
    rcases h.cases_head with rfl | ⟨r, hr, h⟩
    · exact absurd rfl hne
    · have hlt := List.mem_range.mpr (hm.within_silent q r hr)
      exact ⟨r, hr, (Graph.reachesIn_iff hm.mem_range_of_silent).mpr ⟨hlt, h⟩⟩

theorem getD_closures (hclosures : m.solveClosures = .ok closures) (hq : q < m.size) :
    closures.getD q [] = m.walkedClosure q := by
  rw [solveClosures_eq] at hclosures
  obtain rfl := Except.ok.inj hclosures
  simp [hq]

theorem reached_iff (hm : m.WellFormed) (hclosures : m.solveClosures = .ok closures)
    (hq : q < m.size) : reached closures q p = true ↔ m.SilentPath q p := by
  rw [reached, getD_closures hclosures hq, Bool.or_eq_true, beq_iff_eq, List.contains_iff_mem,
    mem_walkedClosure hm]
  constructor
  · rintro (rfl | ⟨-, h⟩)
    · exact .refl
    · exact h
  · intro h
    by_cases hpq : p = q
    · exact .inl hpq
    · exact .inr ⟨hpq, h⟩

theorem closure_eq_filter (hm : m.WellFormed) {qs : List Nat} (hqs : m.Within qs) {f : Nat → Bool}
    (hf : ∀ p, f p = true ↔ ∃ q ∈ qs, m.SilentPath q p) :
    m.closure qs = (List.range m.size).filter f := by
  have hmem : ∀ p ∈ List.range m.size,
      (Graph.walk m.silent (List.range m.size) qs).contains p = f p := by
    intro p hp
    rw [Bool.eq_iff_iff, hf, ← mem_closure hm hqs]
    exact ⟨fun h => List.mem_filter.mpr ⟨hp, h⟩, fun h => (List.mem_filter.mp h).2⟩
  exact List.filter_congr hmem

theorem closureOf_eq (hm : m.WellFormed) (hclosures : m.solveClosures = .ok closures)
    (hq : q < m.size) : m.closureOf closures q = m.closure [q] := by
  refine (closure_eq_filter hm (within_singleton hq) fun p => ?_).symm
  rw [reached_iff hm hclosures hq]
  simp

theorem advance_eq (hm : m.WellFormed) (hclosures : m.solveClosures = .ok closures)
    (qs : List Nat) (c : Char) : m.advance closures qs c = m.stepSet qs c := by
  have hwithin := hm.within_targets qs c
  refine (closure_eq_filter hm hwithin fun p => ?_).symm
  rw [List.any_eq_true]
  exact exists_congr fun q => and_congr_right fun hq => reached_iff hm hclosures (hwithin q hq)

end Nfa

end LexGen
