-- SUMMARY: The subset construction: what its search finds, and why the deterministic automaton accepts the same words.
import Mathlib.Data.List.Perm.Subperm
import Mathlib.Tactic.Common
import LexGen.Dfa.Run
import LexGen.Nfa.Subsets
import LexGen.Nfa.Thompson
import LexGen.Proofs.Dfa.Live
import LexGen.Proofs.Lists
import LexGen.Proofs.Nfa.Path

/-! # Correctness of the subset construction

The search starts from one set of states. An invariant says of the sets found so far that each but
the first is a successor of another one, and that the successors of each are found too, unless it is
still to be looked at. When no work is left, the sets found are closed under steps, and a run of the
deterministic automaton goes through the numbers of the sets that the simulation holds. -/

namespace LexGen.Nfa

variable {m : Nfa} {alphabet : List Char} {root qs : List Nat} {found work : List (List Nat)}

/-! ## The search -/

theorem mem_successors {s : List Nat} :
    s ∈ m.successors alphabet qs ↔ s ≠ [] ∧ ∃ c ∈ alphabet, m.stepSet qs c = s := by
  simp only [successors, List.mem_filter, List.mem_map, Bool.not_eq_true',
    List.isEmpty_eq_false_iff]
  exact and_comm

theorem mem_newSuccessors {s : List Nat} :
    s ∈ m.newSuccessors alphabet found qs ↔ s ∈ m.successors alphabet qs ∧ s ∉ found := by
  simp [newSuccessors]

/-- The search from `root` has found the sets in `found` and still has to look at those in
`work`. -/
structure Search (m : Nfa) (alphabet : List Char) (root : List Nat)
    (found work : List (List Nat)) : Prop where
  nodup : found.Nodup
  root_prefix : [root] <+: found
  work_subset : work ⊆ found
  expanded : ∀ qs ∈ found, qs ∈ work ∨ m.successors alphabet qs ⊆ found
  origin : ∀ s ∈ found, s = root ∨ ∃ qs ∈ found, s ∈ m.successors alphabet qs

theorem Search.start (m : Nfa) (alphabet : List Char) (root : List Nat) :
    m.Search alphabet root [root] [root] := by
  constructor <;> simp

theorem Search.step (h : m.Search alphabet root found (qs :: work)) :
    m.Search alphabet root (found ++ m.newSuccessors alphabet found qs)
      ((m.newSuccessors alphabet found qs).reverse ++ work) := by
  have hqs : qs ∈ found := h.work_subset List.mem_cons_self
  refine ⟨?_, h.root_prefix.trans (List.prefix_append _ _), ?_, ?_, ?_⟩
  · refine h.nodup.append (nodup_eraseDups _) fun s hs hnew => ?_
    exact (mem_newSuccessors.mp hnew).2 hs
  · intro s hs
    rcases List.mem_append.mp hs with hs | hs
    · exact List.mem_append_right _ (List.mem_reverse.mp hs)
    · exact List.mem_append_left _ (h.work_subset (List.mem_cons_of_mem _ hs))
  · intro s hs
    rcases List.mem_append.mp hs with hs | hs
    · rcases h.expanded s hs with hwork | hsucc
      · rcases List.mem_cons.mp hwork with rfl | hwork
        · refine .inr fun t ht => ?_
          by_cases hfound : t ∈ found
          · exact List.mem_append_left _ hfound
          · exact List.mem_append_right _ (mem_newSuccessors.mpr ⟨ht, hfound⟩)
        · exact .inl (List.mem_append_right _ hwork)
      · exact .inr fun t ht => List.mem_append_left _ (hsucc ht)
    · exact .inl (List.mem_append_left _ (List.mem_reverse.mpr hs))
  · intro s hs
    rcases List.mem_append.mp hs with hs | hs
    · rcases h.origin s hs with rfl | ⟨t, ht, hst⟩
      · exact .inl rfl
      · exact .inr ⟨t, List.mem_append_left _ ht, hst⟩
    · exact .inr ⟨qs, List.mem_append_left _ hqs, (mem_newSuccessors.mp hs).1⟩

theorem Search.nodup_step (h : m.Search alphabet root found (qs :: work))
    (hwork : (qs :: work).Nodup) :
    ((m.newSuccessors alphabet found qs).reverse ++ work).Nodup := by
  refine (List.nodup_reverse.mpr (nodup_eraseDups _)).append (List.nodup_cons.mp hwork).2 ?_
  intro s hs hs'
  have hnew := (mem_newSuccessors.mp (List.mem_reverse.mp hs)).2
  exact hnew (h.work_subset (List.mem_cons_of_mem _ hs'))

theorem Search.collect (h : m.Search alphabet root found work) :
    m.Search alphabet root (m.collect alphabet found work) [] := by
  fun_induction Nfa.collect m alphabet found work with
  | case1 found => exact h
  | case2 found qs work new ih => exact ih h.step

theorem search_subsets (m : Nfa) : m.Search m.alphabet m.initial m.subsets [] :=
  (Search.start m m.alphabet m.initial).collect

theorem getElem?_subsets_zero (m : Nfa) : m.subsets[0]? = some m.initial := by
  obtain ⟨rest, hrest⟩ := m.search_subsets.root_prefix
  simp [← hrest]

/-! ## Steps -/

theorem closure_nil (m : Nfa) : m.closure [] = [] := by
  simp [closure, Graph.walk]

theorem stepSet_nil (m : Nfa) (c : Char) : m.stepSet [] c = [] := by
  simp [stepSet, closure_nil]

theorem foldl_stepSet_nil (m : Nfa) (w : List Char) : w.foldl m.stepSet [] = [] := by
  induction w with
  | nil => rfl
  | cons c w ih => rw [List.foldl_cons, stepSet_nil, ih]

theorem stepSet_of_not_mem_alphabet {c : Char} (hc : c ∉ m.alphabet) : m.stepSet qs c = [] := by
  have htargets : ∀ q, m.targets q c = [] := by
    intro q
    refine List.eq_nil_iff_forall_not_mem.mpr fun p hp => ?_
    exact hc (mem_alphabet.mpr ⟨q, p, mem_targets.mp hp⟩)
  rw [stepSet, List.flatMap_eq_nil_iff.mpr fun q _ => htargets q, closure_nil]

theorem mem_alphabet_of_stepSet {c : Char} (h : m.stepSet qs c ≠ []) : c ∈ m.alphabet := by
  by_contra hc
  exact h (stepSet_of_not_mem_alphabet hc)

/-- The steps from a set that was looked at are found. -/
theorem Search.stepSet_mem (h : m.Search m.alphabet root found work) {c : Char} (hqs : qs ∈ found)
    (hwork : qs ∉ work) (hne : m.stepSet qs c ≠ []) : m.stepSet qs c ∈ found := by
  have hsucc := (h.expanded qs hqs).resolve_left hwork
  exact hsucc (mem_successors.mpr ⟨hne, c, mem_alphabet_of_stepSet hne, rfl⟩)

theorem stepSet_mem_subsets {c : Char} (hqs : qs ∈ m.subsets) (h : m.stepSet qs c ≠ []) :
    m.stepSet qs c ∈ m.subsets :=
  m.search_subsets.stepSet_mem hqs List.not_mem_nil h

/-! ## The deterministic automaton -/

/-- The number of the set that reading `c` leads to from `qs`, unless it is empty. -/
def target? (m : Nfa) (qs : List Nat) (c : Char) : Option Nat :=
  if (m.stepSet qs c).isEmpty then none else some (m.subsets.idxOf (m.stepSet qs c))

theorem target?_eq_none {c : Char} : m.target? qs c = none ↔ m.stepSet qs c = [] := by
  simp [target?]

theorem subsetRow_eq (m : Nfa) (alphabet : List Char) (qs : List Nat) :
    m.subsetRow alphabet m.subsets qs =
      alphabet.filterMap fun c => (m.target? qs c).map (c, ·) := by
  simp only [subsetRow, target?]
  congr 1
  funext c
  split <;> rfl

theorem rows_toDfa (m : Nfa) : m.toDfa.rows =
    (m.subsets.map (m.subsetRow m.alphabet m.subsets) ++
      [m.alphabet.map (·, m.subsets.length)]).toArray := rfl

theorem accepting_toDfa (m : Nfa) : m.toDfa.accepting =
    (List.range m.subsets.length).filter fun q => m.isFinal (m.subsets.getD q []) := rfl

theorem size_toDfa (m : Nfa) : m.toDfa.size = m.subsets.length + 1 := by
  simp [Automaton.size, rows_toDfa]

theorem row_toDfa {q : Nat} (hq : m.subsets[q]? = some qs) :
    m.toDfa.rows.getD q [] = m.subsetRow m.alphabet m.subsets qs := by
  obtain ⟨hlt, hqs⟩ := List.getElem?_eq_some_iff.mp hq
  simp [rows_toDfa, List.getElem?_append, hlt, hqs]

theorem get?_toDfa {q : Nat} {c : Char} (hq : m.subsets[q]? = some qs) :
    m.toDfa.get? q c = m.target? qs c := by
  rw [Automaton.get?, row_toDfa hq, subsetRow_eq, lookup_filterMap]
  split
  · rfl
  · rename_i hc
    simp [target?, stepSet_of_not_mem_alphabet hc]

theorem row_toDfa_trap (m : Nfa) :
    m.toDfa.rows.getD m.subsets.length [] =
      m.alphabet.filterMap fun c => (some m.subsets.length).map (c, ·) := by
  simp [rows_toDfa, List.filterMap_eq_map']

theorem get?_toDfa_trap (m : Nfa) (c : Char) :
    m.toDfa.get? m.subsets.length c = if c ∈ m.alphabet then some m.subsets.length else none := by
  rw [Automaton.get?, row_toDfa_trap, lookup_filterMap]

theorem getElem?_subsets_of_target? {q : Nat} {c : Char} (hqs : qs ∈ m.subsets)
    (h : m.target? qs c = some q) : m.subsets[q]? = some (m.stepSet qs c) := by
  unfold target? at h
  split at h
  · cases h
  · rename_i hempty
    obtain rfl := Option.some.inj h
    have hmem := stepSet_mem_subsets hqs (c := c) (by simpa using hempty)
    simp [List.getElem?_idxOf hmem]

theorem getElem?_subsets_of_get?_toDfa {p q : Nat} {c : Char} (hq : m.subsets[q]? = some qs)
    (h : m.toDfa.get? q c = some p) : m.subsets[p]? = some (m.stepSet qs c) := by
  rw [get?_toDfa hq] at h
  exact getElem?_subsets_of_target? (List.mem_of_getElem? hq) h

theorem isAccepting_toDfa {q : Nat} (hq : m.subsets[q]? = some qs) :
    m.toDfa.isAccepting q = m.isFinal qs := by
  obtain ⟨hlt, hqs⟩ := List.getElem?_eq_some_iff.mp hq
  rw [Bool.eq_iff_iff, Dfa.isAccepting, List.contains_iff_mem, accepting_toDfa, List.mem_filter]
  simp [hlt, hqs]

theorem isAccepting_trap_toDfa (m : Nfa) : m.toDfa.isAccepting m.toDfa.trap = false := by
  have htrap : m.toDfa.trap = m.subsets.length := rfl
  simp [Dfa.isAccepting, accepting_toDfa, htrap]

/-- A run of the deterministic automaton goes through the sets that the simulation holds. -/
theorem isAccepting_run_toDfa {q : Nat} (hq : m.subsets[q]? = some qs) (w : List Char) :
    m.toDfa.isAccepting (m.toDfa.run q w) = m.isFinal (w.foldl m.stepSet qs) := by
  induction w generalizing q qs with
  | nil => exact isAccepting_toDfa hq
  | cons c w ih =>
    rw [Dfa.run, get?_toDfa hq, List.foldl_cons]
    cases htarget : m.target? qs c with
    | some p => exact ih (getElem?_subsets_of_target? (List.mem_of_getElem? hq) htarget)
    | none =>
      rw [target?_eq_none.mp htarget, foldl_stepSet_nil]
      exact isAccepting_trap_toDfa m

/-! ## Well-formedness -/

theorem wellFormed_automaton_toDfa (m : Nfa) : m.toDfa.toAutomaton.WellFormed := by
  have hsize := m.size_toDfa
  have hcases : ∀ q, q < m.toDfa.size → (∃ qs, m.subsets[q]? = some qs) ∨ q = m.subsets.length := by
    intro q hq
    rcases Nat.lt_or_ge q m.subsets.length with hlt | hge
    · exact .inl ⟨m.subsets[q], List.getElem?_eq_getElem hlt⟩
    · exact .inr (by omega)
  refine ⟨?_, nodup_eraseDups _, ?_, fun q hq => ?_, fun q c p h => ?_⟩
  · rw [hsize]
    exact Nat.succ_pos _
  · rw [hsize, List.range_succ, List.filter_append, accepting_toDfa, filter_contains_filter]
    simp
  · rcases hcases q hq with ⟨qs, hqs⟩ | rfl
    · have hrow := row_toDfa hqs
      rw [subsetRow_eq] at hrow
      exact Automaton.row_eq_of_filterMap hrow
    · exact Automaton.row_eq_of_filterMap m.row_toDfa_trap
  · rcases hcases q (Automaton.WellFormed.lt_of_get? h) with ⟨qs, hqs⟩ | rfl
    · have hlt := (List.getElem?_eq_some_iff.mp (getElem?_subsets_of_get?_toDfa hqs h)).1
      omega
    · rw [get?_toDfa_trap] at h
      split at h
      · obtain rfl := Option.some.inj h
        omega
      · cases h

theorem follow?_toDfa_trap {w : List Char} {p : Nat}
    (h : m.toDfa.follow? m.subsets.length w = some p) : p = m.subsets.length := by
  induction w with
  | nil => exact (Option.some.inj h).symm
  | cons c w ih =>
    obtain ⟨r, hr, h⟩ := Option.bind_eq_some_iff.mp h
    rw [get?_toDfa_trap] at hr
    split at hr
    · obtain rfl := Option.some.inj hr
      exact ih h
    · cases hr

theorem wellFormed_toDfa (m : Nfa) : m.toDfa.WellFormed := by
  refine ⟨m.wellFormed_automaton_toDfa, rfl, fun ⟨w, p, hw, hp⟩ => ?_⟩
  have htrap := m.isAccepting_trap_toDfa
  rw [follow?_toDfa_trap hw] at hp
  simp [Dfa.isAccepting, show m.toDfa.trap = m.subsets.length from rfl, hp] at htrap

/-- Each set but the first is the target of a transition, so the transitions bound the number of
states. -/
theorem size_toDfa_le (m : Nfa) : m.toDfa.size ≤ m.toDfa.edges.length + 2 := by
  suffices hsub : List.range m.subsets.length ⊆ 0 :: m.toDfa.edges.map (·.target) by
    have hlen := (List.Nodup.subperm List.nodup_range hsub).length_le
    rw [List.length_range, List.length_cons, List.length_map] at hlen
    rw [size_toDfa]
    omega
  have hsearch := m.search_subsets
  intro i hi
  have hi : i < m.subsets.length := List.mem_range.mp hi
  have hidx : m.subsets.idxOf m.subsets[i] = i := hsearch.nodup.idxOf_getElem i hi
  rcases hsearch.origin _ (List.getElem_mem hi) with hroot | ⟨qs, hqs, hsucc⟩
  · obtain ⟨h0, hfirst⟩ := List.getElem?_eq_some_iff.mp m.getElem?_subsets_zero
    have hzero : m.subsets.idxOf m.subsets[0] = 0 := hsearch.nodup.idxOf_getElem 0 h0
    rw [hroot, ← hfirst, hzero] at hidx
    rw [← hidx]
    exact List.mem_cons_self
  · obtain ⟨hne, c, _, hstep⟩ := mem_successors.mp hsucc
    obtain ⟨j, hj, hqj⟩ := List.mem_iff_getElem.mp hqs
    have hget : m.toDfa.get? j c = some i := by
      rw [get?_toDfa (List.getElem?_eq_some_iff.mpr ⟨hj, hqj⟩), target?, hstep, hidx,
        if_neg (by simpa using hne)]
    refine List.mem_cons_of_mem _ (List.mem_map.mpr ⟨⟨j, c, i⟩, ?_, rfl⟩)
    exact m.wellFormed_automaton_toDfa.mem_edges.mpr hget

/-- The deterministic automaton of an expression accepts what its nondeterministic one accepts. -/
theorem accept_toDfa_toNfa (e : Expr) (w : List Char) :
    e.toNfa.toDfa.accept w = e.toNfa.accept w :=
  isAccepting_run_toDfa (getElem?_subsets_zero e.toNfa) w

end LexGen.Nfa
