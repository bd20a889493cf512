-- SUMMARY: The subset construction: the sets of states that a nondeterministic automaton can be in, and the deterministic automaton on them.
import LexGen.Nfa.Basic
import LexGen.Dfa.Basic

/-! # Subset construction

The states of the deterministic automaton are the nonempty sets of states in which the
nondeterministic one can be after some word. They are numbered in the order of a depth-first search
that numbers all new successors of a set before it looks at the last of them. One state is added
behind them: the sink `S`, which loops on every character and is the trap. -/

namespace LexGen

/-! ## Sublists

The search ends because each set it finds is one of the finitely many sublists of the list of all
states. -/

/-- All sublists of a list. -/
def sublists {α : Type} : List α → List (List α)
  | [] => [[]]
  | a :: as => sublists as ++ (sublists as).map (a :: ·)

theorem filter_mem_sublists {α : Type} (p : α → Bool) (as : List α) :
    as.filter p ∈ sublists as := by
  induction as with
  | nil => simp [sublists]
  | cons a as ih =>
    cases h : p a with
    | true => simp [sublists, h, ih]
    | false => simp [sublists, h, ih]

theorem countP_lt_countP {α : Type} {p q : α → Bool} {as : List α} {a : α} (ha : a ∈ as)
    (hp : p a = false) (hq : q a = true) (hpq : ∀ b, p b = true → q b = true) :
    as.countP p < as.countP q := by
  induction as with
  | nil => simp at ha
  | cons b as ih =>
    have hle : as.countP p ≤ as.countP q := List.countP_mono_left fun b _ => hpq b
    rcases List.mem_cons.mp ha with rfl | ha
    · simp [hp, hq]
      omega
    · have := ih ha
      have := hpq b
      by_cases hb : p b = true
      · simp [hb, this hb]
        omega
      · simp [List.countP_cons, hb]
        omega

namespace Nfa

/-! ## The search -/

/-- The nonempty sets that reading one character leads to from `qs`, in the order of the alphabet. -/
def successors (m : Nfa) (alphabet : List Char) (qs : List Nat) : List (List Nat) :=
  (alphabet.map (m.stepSet qs)).filter (!·.isEmpty)

/-- The successors of `qs` that are not in `found`, each of them once. -/
def newSuccessors (m : Nfa) (alphabet : List Char) (found : List (List Nat)) (qs : List Nat) :
    List (List Nat) :=
  ((m.successors alphabet qs).filter (!found.contains ·)).eraseDups

/-- The number of sets of states that are not in `found`. -/
def unfound (m : Nfa) (found : List (List Nat)) : Nat :=
  (sublists (List.range m.size)).countP (!found.contains ·)

theorem unfound_append_lt {m : Nfa} {alphabet : List Char} {found : List (List Nat)}
    {qs : List Nat} (h : m.newSuccessors alphabet found qs ≠ []) :
    m.unfound (found ++ m.newSuccessors alphabet found qs) < m.unfound found := by
  obtain ⟨s, hs⟩ := List.exists_mem_of_ne_nil _ h
  have hs' := hs
  simp only [newSuccessors, successors, List.mem_eraseDups, List.mem_filter, List.mem_map] at hs'
  obtain ⟨⟨⟨c, -, rfl⟩, -⟩, hnew⟩ := hs'
  refine countP_lt_countP (a := m.stepSet qs c) (filter_mem_sublists _ _) ?_ hnew fun b hb => ?_
  · simp [hs]
  · simp only [List.contains_eq_mem, List.mem_append, Bool.not_eq_true', decide_eq_false_iff_not,
      not_or] at hb ⊢
    exact hb.1

/-- The sets found when the successors of those in `work` and all further ones are added to
`found`. -/
def collect (m : Nfa) (alphabet : List Char) (found : List (List Nat)) :
    (work : List (List Nat)) → List (List Nat)
  | [] => found
  | qs :: work =>
    let new := m.newSuccessors alphabet found qs
    collect m alphabet (found ++ new) (new.reverse ++ work)
termination_by work => (m.unfound found, work.length)
decreasing_by
  by_cases h : m.newSuccessors alphabet found qs = []
  · rw [h, List.append_nil, List.reverse_nil, List.nil_append]
    exact Prod.Lex.right _ (by simp)
  · exact Prod.Lex.left _ _ (unfound_append_lt h)

/-- The sets of states that become states of the deterministic automaton, in their order. -/
def subsets (m : Nfa) : List (List Nat) :=
  m.collect m.alphabet [m.initial] [m.initial]

/-! ## The deterministic automaton -/

/-- The transitions out of one set; a character that leads to no state at all has none. -/
def subsetRow (m : Nfa) (alphabet : List Char) (subsets : List (List Nat)) (qs : List Nat) :
    List (Char × Nat) :=
  alphabet.filterMap fun c =>
    let target := m.stepSet qs c
    if target.isEmpty then none else some (c, subsets.idxOf target)

/-- The automaton of the subset construction, without a token name. -/
def toDfa (m : Nfa) : Dfa :=
  let alphabet := m.alphabet
  let subsets := m.subsets
  let count := subsets.length
  let automaton : Automaton := {
    alphabet
    rows := (subsets.map (m.subsetRow alphabet subsets) ++ [alphabet.map (·, count)]).toArray
    start := 0
    accepting := (List.range count).filter fun q => m.isFinal (subsets.getD q [])
  }
  .ofAutomaton automaton "" count true

end Nfa

end LexGen
