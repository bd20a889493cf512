-- SUMMARY: Names of states: numbered states are told apart by their numbers, and a name found in an automaton is that of no other state.
import LexGen.Dfa.Named
import LexGen.Nfa.Named
import LexGen.Proofs.Text

/-! # Names

A state of an automaton is named by its number, or by the label `S` if it is the trap of a
deterministic one. Different states have different names. -/

namespace LexGen

/-! ## Numbered states -/

namespace State

theorem simple_beq_simple (label label' : String) (ordinal ordinal' : Option Nat) :
    (State.simple label ordinal == State.simple label' ordinal') = (label == label') := by
  change State.same _ _ = _
  rw [State.same]

theorem numbered_beq_numbered (m n : Nat) :
    (State.numbered m == State.numbered n) = decide (m = n) := by
  rw [State.numbered, State.numbered, State.ofLabel, State.ofLabel, simple_beq_simple,
    Bool.eq_iff_iff, beq_iff_eq, decide_eq_true_eq, String.ofList_inj,
    Text.Numeral.write_injective.eq_iff]

/-- No numeral is the label `S`. -/
theorem numbered_beq_sink (q : Nat) (ordinal : Option Nat) :
    (State.numbered q == .simple State.sinkLabel ordinal) = false := by
  rw [State.numbered, State.ofLabel, simple_beq_simple, beq_eq_false_iff_ne]
  intro h
  have hmem : 'S' ∈ Text.Numeral.write q := by
    rw [← String.toList_ofList (l := Text.Numeral.write q), h]
    decide
  exact Text.Numeral.not_mem_write (by decide) hmem

theorem beq_of_index? {s : State} {q : Nat} (h : s.index? = some q) : (numbered q == s) = true :=
  (Option.filter_eq_some_iff.mp h).2

theorem eq_of_index?_numbered {p q : Nat} (h : (numbered q).index? = some p) : p = q := by
  have hbeq := beq_of_index? h
  rwa [numbered_beq_numbered, decide_eq_true_eq] at hbeq

end State

/-! ## States of nondeterministic automata -/

namespace Nfa

variable {m : Nfa} {s : State} {p q : Nat}

theorem lt_of_find? (h : m.find? s = some q) : q < m.size :=
  of_decide_eq_true (Option.filter_eq_some_iff.mp h).2

theorem beq_of_find? (h : m.find? s = some q) : (State.numbered q == s) = true :=
  State.beq_of_index? (Option.filter_eq_some_iff.mp h).1

theorem eq_of_find?_numbered (h : m.find? (.numbered q) = some p) : p = q :=
  State.eq_of_index?_numbered (Option.filter_eq_some_iff.mp h).1

end Nfa

/-! ## States of deterministic automata -/

namespace Dfa

variable {d : Dfa} {p q : Nat}

theorem stateAt_eq_numbered (h : d.trapLabelled = true → q ≠ d.trap) :
    d.stateAt q = .numbered q := by
  rw [stateAt, if_neg]
  simpa using h

theorem exists_stateAt_trap (h : d.trapLabelled = true) :
    ∃ ordinal, d.stateAt d.trap = .simple State.sinkLabel ordinal := by
  rw [stateAt, if_pos (by simp [h])]
  split
  · exact ⟨_, rfl⟩
  · exact ⟨_, rfl⟩

theorem eq_of_find?_stateAt (h : d.find? (d.stateAt q) = some p) : p = q := by
  by_cases hq : d.trapLabelled = true ∧ q = d.trap
  · obtain ⟨hlabelled, rfl⟩ := hq
    obtain ⟨ordinal, hname⟩ := exists_stateAt_trap hlabelled
    rw [find?, hname, State.simple_beq_simple, hlabelled, beq_self_eq_true, Bool.and_self,
      if_pos rfl] at h
    exact (Option.some.inj h).symm
  · rw [stateAt_eq_numbered fun hlabelled hqtrap => hq ⟨hlabelled, hqtrap⟩, find?, if_neg] at h
    · exact State.eq_of_index?_numbered (Option.filter_eq_some_iff.mp h).1
    · intro htrap
      obtain ⟨hlabelled, hname⟩ := Bool.and_eq_true_iff.mp htrap
      obtain ⟨ordinal, hordinal⟩ := exists_stateAt_trap hlabelled
      rw [hordinal, State.numbered_beq_sink] at hname
      cases hname

end Dfa

end LexGen
