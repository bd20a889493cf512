-- SUMMARY: Sinks and the trap as dead ends: exactly the dead states, and runs never leave them.
import Mathlib
import LexGen.Proofs.Dfa.Public

/-! # Sinks

A sink is a state from which no word leads to an accepting one, however the automaton was made. Its
transitions lead to sinks again, and gaps lead to the trap, which counts as one. So a run that has
come to a sink can be cut off: it never accepts, whatever input is left. -/

namespace LexGen

namespace Automaton

variable {a : Automaton} {p q : Nat} {c : Char}

theorem Live.of_get? (h : a.get? q c = some p) (hp : a.Live p) : a.Live q :=
  hp.of_follow? (w := [c]) (by rw [follow?, h]; rfl)

end Automaton

namespace Dfa

variable {d : Dfa} {p q : Nat} {c : Char}

/-! ## One step -/

theorem isSink_trap (d : Dfa) : d.isSink d.trap = true := by
  rw [isSink, beq_self_eq_true, Bool.true_or]

theorem isAccepting_iff : d.isAccepting q = true ↔ q ∈ d.accepting :=
  List.contains_iff_mem

namespace WellFormed

theorem not_live_of_isSink (hd : d.WellFormed) (h : d.isSink q = true) : ¬ d.Live q := by
  rw [isSink, Bool.or_eq_true, beq_iff_eq, List.contains_iff_mem, hd.sinks_eq] at h
  rcases h with rfl | h
  · exact hd.trap_dead
  · exact (hd.toWellFormed.mem_deadStates.mp h).2

theorem isAccepting_of_isSink (hd : d.WellFormed) (h : d.isSink q = true) :
    d.isAccepting q = false := by
  rw [Bool.eq_false_iff, Ne, isAccepting_iff]
  exact fun hq => hd.not_live_of_isSink h (Automaton.live_of_mem_accepting hq)

theorem isSink_of_get? (hd : d.WellFormed) (h : d.isSink q = true) (hget : d.get? q c = some p) :
    d.isSink p = true := by
  rw [hd.isSink_iff (.inl (hd.target_lt q c p hget))]
  exact fun hp => hd.not_live_of_isSink h (hp.of_get? hget)

theorem isSink_fst_step (hd : d.WellFormed) (h : d.isSink q = true) (w : List Char) :
    d.isSink (d.step q w).1 = true := by
  cases w with
  | nil => exact h
  | cons c w =>
    rw [step]
    cases hget : d.get? q c with
    | none => exact d.isSink_trap
    | some p => exact hd.isSink_of_get? h hget

end WellFormed

/-! ## Runs -/

/-- The configuration that so many steps lead to. -/
def steps (d : Dfa) : Nat → Nat × List Char → Nat × List Char
  | 0, (q, w) => (q, w)
  | n + 1, (q, w) => d.steps n (d.step q w)

theorem WellFormed.isSink_fst_steps (hd : d.WellFormed) (h : d.isSink q = true) (n : Nat)
    (w : List Char) : d.isSink (d.steps n (q, w)).1 = true := by
  induction n generalizing q w with
  | zero => exact h
  | succ n ih => exact ih (hd.isSink_fst_step h w) _

/-- The sinks among the states are those from which no word leads to an accepting state. They and
the trap are not accepting, and no step leaves them. -/
theorem Public.isSink_iff_dead (hd : d.Public) :
    (∀ q, q < d.size → (d.isSink q = true ↔
      ¬ ∃ w p, d.follow? q w = some p ∧ d.isAccepting p = true)) ∧
    (d.isAccepting d.trap = false ∧ d.isSink d.trap = true) ∧
    (∀ q, d.isAccepting q = true → d.isSink q = false) ∧
    (∀ q c p, d.isSink q = true → d.get? q c = some p → d.isSink p = true) ∧
    ∀ q w n, d.isSink q = true → d.isAccepting (d.steps n (q, w)).1 = false := by
  have hwf := hd.wellFormed
  refine ⟨fun q hq => ?_, ⟨hwf.isAccepting_of_isSink d.isSink_trap, d.isSink_trap⟩,
    fun q hq => ?_, fun q c p => hwf.isSink_of_get?, fun q w n h => ?_⟩
  · simp only [isAccepting_iff]
    exact hwf.isSink_iff (.inl hq)
  · rw [Bool.eq_false_iff]
    intro h
    rw [hwf.isAccepting_of_isSink h] at hq
    cases hq
  · exact hwf.isAccepting_of_isSink (hwf.isSink_fst_steps h n w)

/-- In the automaton of `((a(b∅)) U b)`, the state behind `a` has a transition on `b` and is dead. -/
theorem Public.isSink_iff_dead_behind_a :
    ∃ d : Dfa, d.Public ∧ 1 < d.size ∧ d.get? 0 'a' = some 1 ∧ d.get? 1 'b' = some 3 ∧
      (¬ ∃ w p, d.follow? 1 w = some p ∧ d.isAccepting p = true) ∧ d.isSink 3 = true ∧
      ∀ w n, d.isAccepting (d.steps n (1, w)).1 = false := by
  have hd := Public.compiled
    (.union (.concat (.symbol 'a') (.concat (.symbol 'b') .empty)) (.symbol 'b'))
  obtain ⟨hdead, -, -, hclosed, hrun⟩ := hd.isSink_iff_dead
  generalize hdfa : Nfa.toDfa _ = d at hd hdead hclosed hrun
  have hsize : 1 < d.size := by rw [← hdfa]; cbv
  have hfirst : d.get? 0 'a' = some 1 := by rw [← hdfa]; cbv
  have hsecond : d.get? 1 'b' = some 3 := by rw [← hdfa]; cbv
  have hsink : d.isSink 1 = true := by rw [← hdfa]; cbv
  exact ⟨d, hd, hsize, hfirst, hsecond, (hdead 1 hsize).mp hsink, hclosed 1 'b' 3 hsink hsecond,
    fun w n => hrun 1 w n hsink⟩

end Dfa

end LexGen
