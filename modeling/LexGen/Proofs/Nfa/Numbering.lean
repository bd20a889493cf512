-- SUMMARY: The states of the deterministic automaton are numbers of the nonempty sets that reading leads to, each set under one number, and behind them the sink.
import Mathlib
import LexGen.Proofs.Assertions.Determinization
import LexGen.Proofs.State.Names

/-! # The numbering of the sets

The deterministic automaton numbers sets of states. Each nonempty set that the characters of the
alphabet lead to has exactly one number, whatever way leads there. The transitions are the steps
between the sets under their numbers, and a gap stands for the empty set. The number behind all sets
is the sink. -/

namespace LexGen.Nfa

variable {m : Nfa} {qs s : List Nat} {found work : List (List Nat)}

/-! ## Sets that reading leads to -/

/-- The set is reached from the closure of the start state by steps on characters of the alphabet. -/
inductive Reaches (m : Nfa) : List Nat → Prop where
  | start : Reaches m (m.closure [0])
  | step {qs : List Nat} {c : Char} (h : Reaches m qs) (hc : c ∈ m.alphabet) :
      Reaches m (m.stepSet qs c)

/-- What the search finds is reached, if what it has found before is. -/
theorem reaches_collect (hfound : ∀ s ∈ found, m.Reaches s) (hwork : work ⊆ found)
    (hs : s ∈ m.collect m.alphabet found work) : m.Reaches s := by
  fun_induction Nfa.collect m m.alphabet found work with
  | case1 found => exact hfound s hs
  | case2 found qs work new ih =>
    have hqs := hfound qs (hwork List.mem_cons_self)
    have hnew : ∀ t ∈ m.newSuccessors m.alphabet found qs, m.Reaches t := by
      intro t ht
      obtain ⟨_, c, hc, rfl⟩ := mem_successors.mp (mem_newSuccessors.mp ht).1
      exact hqs.step hc
    refine ih (List.forall_mem_append.mpr ⟨hfound, hnew⟩) (fun t ht => ?_) hs
    rcases List.mem_append.mp ht with ht | ht
    · exact List.mem_append_right _ (List.mem_reverse.mp ht)
    · exact List.mem_append_left _ (hwork (List.mem_cons_of_mem _ ht))

theorem reaches_of_mem_subsets (hs : s ∈ m.subsets) : m.Reaches s := by
  refine reaches_collect (fun t ht => ?_) (fun _ ht => ht) hs
  rw [List.mem_singleton.mp ht]
  exact .start

theorem ne_nil_of_mem_subsets (hm : m.WellFormed) (hs : s ∈ m.subsets) : s ≠ [] := by
  rcases m.search_subsets.origin s hs with rfl | ⟨qs, _, hsucc⟩
  · exact initial_ne_nil hm
  · exact (mem_successors.mp hsucc).1

theorem Reaches.mem_subsets (h : m.Reaches s) (hne : s ≠ []) : s ∈ m.subsets := by
  induction h with
  | start => exact List.mem_of_getElem? m.getElem?_subsets_zero
  | @step qs c _ _ ih =>
    -- The empty set leads nowhere else, so a nonempty set is reached through nonempty ones.
    have hqs : qs ≠ [] := by
      rintro rfl
      exact hne (stepSet_nil m c)
    exact stepSet_mem_subsets (ih hqs) hne

theorem mem_subsets_iff (hm : m.WellFormed) : s ∈ m.subsets ↔ s ≠ [] ∧ m.Reaches s :=
  ⟨fun h => ⟨ne_nil_of_mem_subsets hm h, reaches_of_mem_subsets h⟩, fun ⟨hne, h⟩ => h.mem_subsets hne⟩

theorem Reaches.pairwise (h : m.Reaches s) : s.Pairwise (· < ·) := by
  cases h with
  | start => exact List.pairwise_lt_range.filter _
  | step _ _ => exact List.pairwise_lt_range.filter _

/-! ## Transitions between the numbers -/

theorem eq_of_getElem?_subsets {i j : Nat} (hi : m.subsets[i]? = some s)
    (hj : m.subsets[j]? = some s) : i = j :=
  (List.getElem?_inj (List.getElem?_eq_some_iff.mp hi).1 m.search_subsets.nodup).mp (hi.trans hj.symm)

theorem get?_toDfa_eq_none {i : Nat} {c : Char} (hqs : m.subsets[i]? = some qs) :
    m.toDfa.get? i c = none ↔ m.stepSet qs c = [] := by
  rw [get?_toDfa hqs, target?_eq_none]

theorem get?_toDfa_eq_some (hm : m.WellFormed) {i j : Nat} {c : Char}
    (hqs : m.subsets[i]? = some qs) :
    m.toDfa.get? i c = some j ↔ m.subsets[j]? = some (m.stepSet qs c) := by
  refine ⟨getElem?_subsets_of_get?_toDfa hqs, fun hj => ?_⟩
  cases hget : m.toDfa.get? i c with
  | none =>
    have hempty := (get?_toDfa_eq_none hqs).mp hget
    exact absurd hempty (ne_nil_of_mem_subsets hm (List.mem_of_getElem? hj))
  | some k => rw [eq_of_getElem?_subsets (getElem?_subsets_of_get?_toDfa hqs hget) hj]

theorem Reaches.exists_follow? (hm : m.WellFormed) (h : m.Reaches s) (hne : s ≠ []) :
    ∃ i w, m.subsets[i]? = some s ∧ m.toDfa.follow? 0 w = some i := by
  induction h with
  | start => exact ⟨0, [], m.getElem?_subsets_zero, rfl⟩
  | @step qs c h hc ih =>
    have hqs : qs ≠ [] := by
      rintro rfl
      exact hne (stepSet_nil m c)
    obtain ⟨i, w, hi, hw⟩ := ih hqs
    obtain ⟨j, hj⟩ := List.mem_iff_getElem?.mp ((h.step hc).mem_subsets hne)
    refine ⟨j, w ++ [c], hj, ?_⟩
    rw [Automaton.follow?_append, hw, Option.bind_some, Automaton.follow?,
      (get?_toDfa_eq_some hm hi).mpr hj]
    rfl

/-! ## The names of the states -/

theorem stateAt_toDfa {i : Nat} (hi : i < m.subsets.length) : m.toDfa.stateAt i = .numbered i :=
  Dfa.stateAt_eq_numbered fun _ => Nat.ne_of_lt hi

theorem stateAt_toDfa_trap (m : Nfa) :
    m.toDfa.stateAt m.subsets.length = .sink m.subsets.length := by
  have hsize : m.subsets.length < m.toDfa.size := by
    rw [size_toDfa]
    exact Nat.lt_succ_self _
  have htrap : (m.toDfa.trapLabelled && m.subsets.length == m.toDfa.trap) = true := by
    change (true && m.subsets.length == m.subsets.length) = true
    rw [beq_self_eq_true, Bool.and_self]
  rw [Dfa.stateAt, if_pos htrap, if_pos hsize]

theorem states_toDfa (m : Nfa) :
    (List.range m.toDfa.size).map m.toDfa.stateAt =
      (List.range m.subsets.length).map .numbered ++ [.sink m.subsets.length] := by
  rw [size_toDfa, List.range_succ, List.map_append, List.map_singleton, stateAt_toDfa_trap]
  congr 1
  exact List.map_congr_left fun i hi => stateAt_toDfa (List.mem_range.mp hi)

/-! ## The numbering -/

/-- The automaton has the numbers of the given sets as states, and a sink behind them. -/
structure NumbersSets (m : Nfa) (d : Dfa) (sets : List (List Nat)) : Prop where
  mem_sets : ∀ qs, qs ∈ sets ↔ qs ≠ [] ∧ m.Reaches qs
  nodup : sets.Nodup
  increasing : ∀ qs ∈ sets, qs.Pairwise (· < ·)
  alphabet_eq : d.alphabet = m.alphabet
  states_eq : (List.range d.size).map d.stateAt =
    (List.range sets.length).map .numbered ++ [.sink sets.length]
  start_eq : d.start = 0
  first_eq : sets[0]? = some (m.closure [0])
  get?_eq_some : ∀ i qs, sets[i]? = some qs → ∀ c j,
    d.get? i c = some j ↔ sets[j]? = some (m.stepSet qs c)
  get?_eq_none : ∀ i qs, sets[i]? = some qs → ∀ c, d.get? i c = none ↔ m.stepSet qs c = []
  accepting_iff : ∀ i qs, sets[i]? = some qs → (d.isAccepting i = true ↔ m.final ∈ qs)
  sink_rejects : d.isAccepting sets.length = false
  sink_loops : ∀ c, d.get? sets.length c = if c ∈ m.alphabet then some sets.length else none
  sink_apart : ∀ i c, d.get? i c = some sets.length → i = sets.length
  trap_eq : d.trap = sets.length
  reached : ∀ i, i < sets.length → ∃ w, d.follow? d.start w = some i

theorem numbersSets_toDfa (hm : m.WellFormed) : m.NumbersSets m.toDfa m.subsets := by
  constructor
  case mem_sets => exact fun _ => mem_subsets_iff hm
  case nodup => exact m.search_subsets.nodup
  case increasing => exact fun _ hqs => (reaches_of_mem_subsets hqs).pairwise
  case alphabet_eq => rfl
  case states_eq => exact m.states_toDfa
  case start_eq => rfl
  case first_eq => exact m.getElem?_subsets_zero
  case get?_eq_some => exact fun _ _ hqs _ _ => get?_toDfa_eq_some hm hqs
  case get?_eq_none => exact fun _ _ hqs _ => get?_toDfa_eq_none hqs
  case accepting_iff =>
    intro i qs hqs
    rw [isAccepting_toDfa hqs, isFinal, List.contains_iff_mem]
  case sink_rejects => exact m.isAccepting_trap_toDfa
  case sink_loops => exact m.get?_toDfa_trap
  case sink_apart =>
    intro i c h
    have hi := Automaton.WellFormed.lt_of_get? h
    rw [size_toDfa] at hi
    refine Nat.eq_of_lt_succ_of_not_lt hi fun hlt => ?_
    have htarget := getElem?_subsets_of_get?_toDfa (List.getElem?_eq_getElem hlt) h
    exact Nat.lt_irrefl _ (List.getElem?_eq_some_iff.mp htarget).1
  case trap_eq => rfl
  case reached =>
    intro i hi
    have hmem := List.getElem_mem hi
    obtain ⟨j, w, hj, hw⟩ :=
      (reaches_of_mem_subsets hmem).exists_follow? hm (ne_nil_of_mem_subsets hm hmem)
    rw [eq_of_getElem?_subsets (List.getElem?_eq_getElem hi) hj]
    exact ⟨w, hw⟩

/-- The automaton of an expression, built step by step, has as its states the numbers of the nonempty
sets that reading leads to, and the sink. -/
theorem determinize_numbersSets (e : Expr) :
    ∃ sets, e.toNfa.determinize = .ok e.toNfa.toDfa ∧ e.toNfa.NumbersSets e.toNfa.toDfa sets :=
  ⟨e.toNfa.subsets, determinize_eq e.wellFormed_toNfa, numbersSets_toDfa e.wellFormed_toNfa⟩

/-- In a star of a star, the set behind `a` is another one than the first, and `a` leads back to it. -/
theorem determinize_numbersSets_star :
    ∃ (e : Expr) (sets : List (List Nat)), e.toNfa.NumbersSets e.toNfa.toDfa sets ∧
      sets[0]? = some [0, 1, 2, 4, 5] ∧ sets[1]? = some [1, 2, 3, 4, 5] ∧
      e.toNfa.toDfa.get? 1 'a' = some 1 := by
  obtain ⟨sets, -, h⟩ := determinize_numbersSets (.star (.star (.symbol 'a')))
  have hfirst : (Expr.star (.star (.symbol 'a'))).toNfa.closure [0] = [0, 1, 2, 4, 5] := by cbv
  have hstep : (Expr.star (.star (.symbol 'a'))).toNfa.stepSet [0, 1, 2, 4, 5] 'a' =
      [1, 2, 3, 4, 5] := by cbv
  have hloop : (Expr.star (.star (.symbol 'a'))).toNfa.stepSet [1, 2, 3, 4, 5] 'a' =
      [1, 2, 3, 4, 5] := by cbv
  have hget : (Expr.star (.star (.symbol 'a'))).toNfa.toDfa.get? 0 'a' = some 1 := by cbv
  have hzero : sets[0]? = some [0, 1, 2, 4, 5] := h.first_eq.trans (congrArg some hfirst)
  have hone : sets[1]? = some [1, 2, 3, 4, 5] := by
    rw [(h.get?_eq_some 0 _ hzero 'a' 1).mp hget, hstep]
  refine ⟨_, sets, h, hzero, hone, (h.get?_eq_some 1 _ hone 'a' 1).mpr ?_⟩
  rw [hloop, hone]

end LexGen.Nfa
