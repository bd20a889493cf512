-- SUMMARY: The automaton of the subset construction put together from what the search has found: its parts belong together, and it is the one on the sets.
import Mathlib
import LexGen.Proofs.Assertions.Emission
import LexGen.Proofs.Assertions.Exploration
import LexGen.Proofs.Assertions.Reading
import LexGen.Proofs.Nfa.Thompson
import LexGen.Proofs.Table.RoundTrip

/-! # The automaton of a search

When the search ends, its table holds the transitions of the deterministic automaton except the loops
of the sink. The states are labelled with their numbers and the sink with `S`, so the parts belong
together and determine the same table. -/

namespace LexGen

/-! ## The construction -/

/-- The parts of the automaton: the found states by their numbers, and the sink. -/
def Exploration.parts (m : Nfa) (x : Exploration) : Dfa.Parts :=
  let sink := State.sink x.found.length
  { token := ""
    states := (List.range x.found.length).map .numbered ++ [sink]
    alphabet := m.alphabet
    start := .numbered 0
    delta := x.table.map Dfa.Parts.numberedEdge ++ m.alphabet.map (⟨sink, ·, sink⟩)
    accepting := x.accepting.map .numbered
    sinks := [sink]
    trap? := some sink }

/-- The automaton of the subset construction, built with all checks. -/
def Nfa.determinize (m : Nfa) : Except Violation Dfa := do
  let closures ← m.solveClosures
  let (x, start, _) ← Exploration.intern m ⟨[], [], [], []⟩ (m.closureOf closures 0)
  let x ← { x with stack := [start] }.explore m closures
  let d ← (x.parts m).build
  return d.withSinks

/-! ## The parts -/

namespace Nfa

open Exploration (ofFound Explored)
open Dfa.Parts (numberedEdge)

variable {m : Nfa} {table : List (Edge Nat Char)}

/-- The transitions of the table and the loops of the sink. -/
def searchedEdges (m : Nfa) (table : List (Edge Nat Char)) : List (Edge Nat Char) :=
  table ++ m.alphabet.map (⟨m.subsets.length, ·, m.subsets.length⟩)

/-- The parts of the automaton when all sets are found. -/
def searchedParts (m : Nfa) (table : List (Edge Nat Char)) : Dfa.Parts :=
  (ofFound m m.subsets table []).parts m

theorem states_searchedParts (m : Nfa) (table : List (Edge Nat Char)) :
    (m.searchedParts table).states =
      (List.range m.subsets.length).map State.numbered ++ [State.sink m.subsets.length] := by
  simp [searchedParts, Exploration.parts, ofFound]

theorem delta_searchedParts (m : Nfa) (table : List (Edge Nat Char)) :
    (m.searchedParts table).delta = table.map numberedEdge ++
      m.alphabet.map (⟨State.sink m.subsets.length, ·, State.sink m.subsets.length⟩) := by
  simp [searchedParts, Exploration.parts, ofFound]

theorem mem_table (h : Explored m m.subsets [] table) {e : Edge Nat Char} :
    e ∈ table ↔ e.source < m.subsets.length ∧ m.toDfa.get? e.source e.label = some e.target := by
  rw [h]
  constructor
  · rintro ⟨qs, hqs, _, hne, htarget⟩
    refine ⟨(List.getElem?_eq_some_iff.mp hqs).1, ?_⟩
    rw [get?_toDfa hqs, target?, if_neg (by simpa using hne), htarget]
  · rintro ⟨hlt, hget⟩
    have hqs := List.getElem?_eq_getElem hlt
    rw [get?_toDfa hqs, target?] at hget
    split at hget
    · cases hget
    · rename_i hne
      exact ⟨_, hqs, List.not_mem_nil, by simpa using hne, (Option.some.inj hget).symm⟩

theorem ends_lt_of_mem_table (h : Explored m m.subsets [] table) {e : Edge Nat Char}
    (he : e ∈ table) : e.source < m.subsets.length ∧ e.target < m.subsets.length := by
  obtain ⟨hlt, hget⟩ := (mem_table h).mp he
  have htarget := getElem?_subsets_of_get?_toDfa (List.getElem?_eq_getElem hlt) hget
  exact ⟨hlt, (List.getElem?_eq_some_iff.mp htarget).1⟩

theorem mem_searchedEdges (h : Explored m m.subsets [] table) (e : Edge Nat Char) :
    e ∈ m.searchedEdges table ↔ e ∈ m.toDfa.edges := by
  rw [m.wellFormed_automaton_toDfa.mem_edges, searchedEdges, List.mem_append, mem_table h]
  constructor
  · rintro (⟨_, hget⟩ | hloop)
    · exact hget
    · obtain ⟨c, hc, rfl⟩ := List.mem_map.mp hloop
      rw [get?_toDfa_trap, if_pos hc]
  · intro hget
    have hsource := Automaton.WellFormed.lt_of_get? hget
    rw [size_toDfa] at hsource
    by_cases hlt : e.source < m.subsets.length
    · exact .inl ⟨hlt, hget⟩
    · obtain ⟨q, c, p⟩ := e
      obtain rfl : q = m.subsets.length := Nat.eq_of_lt_succ_of_not_lt hsource hlt
      rw [get?_toDfa_trap] at hget
      split at hget
      · rename_i hc
        obtain rfl := Option.some.inj hget
        exact .inr (List.mem_map_of_mem hc)
      · cases hget

theorem subsets_pos (m : Nfa) : 0 < m.subsets.length :=
  (List.getElem?_eq_some_iff.mp m.getElem?_subsets_zero).1

theorem sink_mem_states (m : Nfa) (table : List (Edge Nat Char)) :
    (m.searchedParts table).states.contains (State.sink m.subsets.length) = true := by
  rw [states_searchedParts, List.contains_append, Bool.or_eq_true]
  refine .inr ?_
  rw [List.contains_cons, State.sink, State.simple_beq_simple]
  rfl

theorem closed_searchedParts (h : Explored m m.subsets [] table) :
    (m.searchedParts table).Closed := by
  have hnumbered : ∀ q, q < m.subsets.length →
      (m.searchedParts table).states.contains (.numbered q) = true :=
    fun q hq => Dfa.Parts.contains_numbered (m.states_searchedParts table) hq
  constructor
  case start => exact hnumbered 0 m.subsets_pos
  case accepting =>
    change ∀ s ∈ ((List.range m.subsets.length).filter _).map State.numbered, _
    rw [List.forall_mem_map]
    exact fun q hq => hnumbered q (List.mem_range.mp (List.mem_filter.mp hq).1)
  case source =>
    rw [delta_searchedParts, List.forall_mem_append, List.forall_mem_map, List.forall_mem_map]
    exact ⟨fun e he => hnumbered _ (ends_lt_of_mem_table h he).1,
      fun _ _ => m.sink_mem_states table⟩
  case target =>
    rw [delta_searchedParts, List.forall_mem_append, List.forall_mem_map, List.forall_mem_map]
    exact ⟨fun e he => hnumbered _ (ends_lt_of_mem_table h he).2,
      fun _ _ => m.sink_mem_states table⟩

theorem position_sink (m : Nfa) (table : List (Edge Nat Char)) :
    (m.searchedParts table).position (State.sink m.subsets.length) = m.subsets.length := by
  rw [State.sink, Dfa.Parts.position_sink (m.states_searchedParts table), State.sink,
    List.findIdx_cons, State.simple_beq_simple]
  simp

/-- The places of the states are their numbers. -/
theorem map_positions_delta (h : Explored m m.subsets [] table) :
    (m.searchedParts table).delta.map (m.searchedParts table).positions = m.searchedEdges table := by
  rw [delta_searchedParts, List.map_append,
    Dfa.Parts.map_positions_numberedEdge (m.states_searchedParts table) fun e he =>
      ends_lt_of_mem_table h he,
    List.map_map, searchedEdges]
  congr 2
  funext c
  exact congrArg₂ (Edge.mk · c ·) (m.position_sink table) (m.position_sink table)

theorem toAutomaton_searchedParts (h : Explored m m.subsets [] table) :
    (m.searchedParts table).dfa.toAutomaton = m.toDfa.toAutomaton := by
  have hstates := m.states_searchedParts table
  have hlength : (m.searchedParts table).states.length = m.toDfa.size := by
    rw [hstates, size_toDfa]
    simp
  have hstart : (m.searchedParts table).position (m.searchedParts table).start = 0 :=
    Dfa.Parts.position_numbered hstates m.subsets_pos
  have haccepting : (m.searchedParts table).accepting.map (m.searchedParts table).position =
      m.toDfa.accepting :=
    Dfa.Parts.map_position_numbered hstates fun q hq =>
      List.mem_range.mp (List.mem_filter.mp hq).1
  rw [Dfa.Parts.dfa, hlength, hstart, haccepting, map_positions_delta h]
  exact m.wellFormed_automaton_toDfa.ofEdges_eq (mem_searchedEdges h)

theorem trap_searchedParts (m : Nfa) (table : List (Edge Nat Char)) :
    (m.searchedParts table).trap = State.sink m.subsets.length := by
  simp [Dfa.Parts.trap, searchedParts, Exploration.parts, ofFound]

theorem build_searchedParts (h : Explored m m.subsets [] table) :
    ∃ d, (m.searchedParts table).build = .ok d ∧ d.withSinks = m.toDfa := by
  refine ⟨_, Dfa.Parts.build_eq_ok.mpr ⟨closed_searchedParts h, rfl⟩, ?_⟩
  have htrap : (m.searchedParts table).dfa.trap = m.subsets.length := by
    rw [Dfa.Parts.dfa, trap_searchedParts, position_sink]
  have hlabelled : (m.searchedParts table).dfa.trapLabelled = true := by
    rw [Dfa.Parts.dfa, trap_searchedParts, State.sink, State.ofLabel, State.simple_beq_simple]
    rfl
  change Dfa.ofAutomaton (m.searchedParts table).dfa.toAutomaton _ _ _ = _
  rw [toAutomaton_searchedParts h, htrap, hlabelled]
  rfl

/-! ## The construction succeeds -/

theorem initial_ne_nil (hm : m.WellFormed) : m.initial ≠ [] := by
  have hmem : 0 ∈ m.initial :=
    (mem_closure hm (within_start hm)).mpr ⟨0, List.mem_singleton_self 0, .refl⟩
  exact List.ne_nil_of_mem hmem

theorem explored_initial (m : Nfa) : Explored m [m.initial] [m.initial] [] := by
  intro e
  refine iff_of_false List.not_mem_nil ?_
  intro ⟨qs, hqs, hlooked, _⟩
  exact hlooked (List.mem_of_getElem? hqs)

theorem standing_initial (m : Nfa) :
    Exploration.Standing m m.initial [m.initial] [m.initial] [] [0] :=
  ⟨.start m m.alphabet m.initial, List.nodup_singleton _, .cons rfl .nil, m.explored_initial⟩

/-- The first set that is numbered is the one in which the search begins. -/
theorem intern_closureOf (hm : m.WellFormed) {closures : List (List Nat)}
    (hclosures : m.solveClosures = .ok closures) :
    Exploration.intern m ⟨[], [], [], []⟩ (m.closureOf closures 0) =
      .ok (ofFound m [m.initial] [] [], 0, true) := by
  rw [closureOf_eq hm hclosures hm.size_pos, ← initial]
  exact Exploration.intern_ofFound_of_not_mem (initial_ne_nil hm) List.not_mem_nil

/-- No check of the subset construction fails, and the automaton is the one on the sets found. -/
theorem determinize_eq (hm : m.WellFormed) : m.determinize = .ok m.toDfa := by
  have hclosures := m.solveClosures_eq
  have hadvance := advance_eq hm hclosures
  obtain ⟨table, hexplore, htable⟩ := Exploration.explore_ofFound hadvance m.standing_initial
  obtain ⟨d, hbuild, hd⟩ := build_searchedParts htable
  rw [determinize, hclosures, ok_bind, intern_closureOf hm hclosures, ok_bind]
  change Exploration.explore m _ (ofFound m [m.initial] [] [0]) >>= _ = _
  rw [hexplore, ok_bind]
  change (m.searchedParts table).build >>= _ = _
  rw [hbuild, ok_bind, hd]
  rfl

end Nfa

/-! ## Every expression and every text -/

/-- The checks of the builders hold for every expression, and those of the reader for every text. -/
theorem checks_hold (e : Expr) (text : String) :
    e.construct = .ok e.toNfa ∧ e.toNfa.determinize = .ok e.toNfa.toDfa ∧
      Table.parseChecked text = .ok (Table.parse text) :=
  ⟨e.construct_eq_toNfa, Nfa.determinize_eq e.wellFormed_toNfa, Table.parseChecked_eq text⟩

end LexGen
