-- SUMMARY: Reading a table with the checks on the parts of each automaton: no text makes them fail.
import Mathlib
import LexGen.Proofs.Assertions.Parts
import LexGen.Proofs.Table.Grammar

/-! # Entries as parts

The reader puts the automaton of an entry together from parts whose states are labelled with their
numbers. Every ordinal was checked against the number of states when its line was read, so the parts
belong together, whatever the text is and however large the number of states in it is. -/

namespace LexGen

/-! ## One entry -/

namespace Entry

/-- The table of an entry. -/
def automaton (x : Entry) : Automaton :=
  .ofEdges x.alphabet x.count x.start x.accepting x.edges

/-- The parts of the automaton of an entry. -/
def parts (x : Entry) : Dfa.Parts where
  token := x.token
  states := (List.range x.count).map .numbered
  alphabet := x.alphabet
  start := .numbered x.start
  delta := x.edges.map Dfa.Parts.numberedEdge
  accepting := x.accepting.map .numbered
  sinks := (Graph.deadEnds (List.range x.count) x.edges x.accepting).map .numbered
  trap? := none

variable {x : Entry}

theorem states_parts (x : Entry) :
    x.parts.states = (List.range x.count).map State.numbered ++ [] :=
  (List.append_nil _).symm

theorem Consistent.closed_parts (hx : x.Consistent) : x.parts.Closed := by
  have hnumbered : ∀ q, q < x.count → x.parts.states.contains (.numbered q) = true :=
    fun q hq => Dfa.Parts.contains_numbered x.states_parts hq
  constructor
  case start => exact hnumbered _ hx.start_lt
  case accepting =>
    rw [parts, List.forall_mem_map]
    exact fun q hq => hnumbered q (hx.accepting_lt q hq)
  case source =>
    rw [parts, List.forall_mem_map]
    exact fun e he => hnumbered _ (hx.ends_lt e he).1
  case target =>
    rw [parts, List.forall_mem_map]
    exact fun e he => hnumbered _ (hx.ends_lt e he).2

/-- The reader goes through the transitions as they are in the text, whatever their labels are. They
are those of the table, since the labels belong to the alphabet. -/
theorem Consistent.deadEnds_eq (hx : x.Consistent) :
    Graph.deadEnds (List.range x.count) x.edges x.accepting = x.automaton.deadStates := by
  have hsize : x.automaton.size = x.count := Automaton.size_ofEdges
  have hmem : ∀ q, q ∈ x.accepting ↔ q ∈ x.automaton.accepting := by
    intro q
    rw [automaton, Automaton.ofEdges, List.mem_filter, List.contains_iff_mem, List.mem_range]
    exact (and_iff_right_of_imp (hx.accepting_lt q)).symm
  rw [Automaton.deadStates, hsize]
  exact Graph.deadEnds_congr (fun _ => (hx.wellFormed.mem_edges.trans hx.get?_eq_some).symm) hmem

/-- The numbers of the states are their places, so the table of the parts is that of the entry. -/
theorem Consistent.toAutomaton_dfa_parts (hx : x.Consistent) :
    x.parts.dfa.toAutomaton = x.automaton := by
  have hlength : x.parts.states.length = x.count := by
    rw [parts, List.length_map, List.length_range]
  have hstart : x.parts.position x.parts.start = x.start :=
    Dfa.Parts.position_numbered x.states_parts hx.start_lt
  have haccepting : x.parts.accepting.map x.parts.position = x.accepting :=
    Dfa.Parts.map_position_numbered x.states_parts hx.accepting_lt
  have hdelta : x.parts.delta.map x.parts.positions = x.edges :=
    Dfa.Parts.map_positions_numberedEdge x.states_parts hx.ends_lt
  rw [Dfa.Parts.dfa, hlength, hstart, haccepting, hdelta]
  rfl

theorem Consistent.dfa_parts (hx : x.Consistent) : x.parts.dfa = x.dfa := by
  have htable := hx.toAutomaton_dfa_parts
  have hstates : x.parts.sinks = x.automaton.deadStates.map State.numbered := by
    rw [parts, hx.deadEnds_eq]
  have hlt : ∀ q ∈ x.automaton.deadStates, q < x.count := by
    intro q hq
    rw [← hx.deadEnds_eq] at hq
    exact List.mem_range.mp (Graph.mem_deadEnds.mp hq).1
  have hsinks : x.parts.dfa.sinks = x.automaton.deadStates := by
    rw [Dfa.Parts.dfa, hstates, Dfa.Parts.map_position_numbered x.states_parts hlt]
  have htrap : x.parts.dfa.trap = x.automaton.deadStates.head?.getD x.automaton.size ∧
      x.parts.dfa.trapLabelled = x.automaton.deadStates.isEmpty := by
    rw [Dfa.Parts.dfa]
    cases hdead : x.automaton.deadStates with
    | nil =>
      have hstate : x.parts.trap = .simple State.sinkLabel (State.labelNumber? State.sinkLabel) := by
        rw [Dfa.Parts.trap, hstates, hdead]
        rfl
      have hsize : x.automaton.size = x.count := Automaton.size_ofEdges
      rw [hstate, Dfa.Parts.position_sink x.states_parts, hsize]
      exact ⟨rfl, rfl⟩
    | cons q qs =>
      have hstate : x.parts.trap = .numbered q := by
        rw [Dfa.Parts.trap, hstates, hdead]
        rfl
      have hq : q < x.count := hlt q (by simp [hdead])
      rw [hstate, Dfa.Parts.position_numbered x.states_parts hq, State.ofLabel,
        State.numbered_beq_sink]
      exact ⟨rfl, rfl⟩
  have htoken : x.parts.dfa.token = x.token := rfl
  rw [dfa, Automaton.toEntry_eq, Dfa.ofAutomaton]
  generalize x.parts.dfa = d at htable hsinks htrap htoken ⊢
  obtain ⟨automaton, token, sinks, trap, trapLabelled⟩ := d
  subst htable hsinks htoken
  rw [Dfa.mk.injEq]
  exact ⟨rfl, rfl, rfl, htrap⟩

end Entry

/-! ## Whole tables -/

/-- Reads entries up to the end, with all checks. -/
def Cursor.readEntriesChecked (k : Cursor) : Except Violation (Except Table.Error Table) :=
  if k.onlyBlanks then .ok (.ok [])
  else
    match _h : k.readFields with
    | .error e => .ok (.error e)
    | .ok (x, k') => do
      let d ← x.parts.build
      let rest ← readEntriesChecked k'.skipEmpty
      return rest.map (d :: ·)
termination_by k.lines.length
decreasing_by
  exact Nat.lt_of_le_of_lt k'.length_lines_skipEmpty (Cursor.length_lines_of_readFields ‹_›)

/-- Reads a table with all checks. -/
def Table.parseChecked (text : String) : Except Violation (Except Table.Error Table) :=
  Cursor.readEntriesChecked ⟨Text.lines text.toList, 1⟩

theorem Cursor.Holds.consistent {k k' : Cursor} {x : Entry} (h : k.Holds x k') : x.Consistent := by
  obtain ⟨y, lines, hy, _, _, rfl⟩ := Entry.exists_spelledBy_of_holds h
  exact hy.consistent.reverse

theorem Entry.Consistent.build_parts {x : Entry} (hx : x.Consistent) : x.parts.build = .ok x.dfa :=
  Dfa.Parts.build_eq_ok.mpr ⟨hx.closed_parts, hx.dfa_parts⟩

theorem Cursor.readEntriesChecked_eq (k : Cursor) : k.readEntriesChecked = .ok k.readEntries := by
  fun_induction readEntriesChecked k with
  | case1 k hblank => rw [readEntries_eq, if_pos hblank]
  | case2 k hblank e hfields =>
    rw [readEntries_eq, if_neg hblank, readEntry, hfields]
    rfl
  | case3 k hblank x k' hfields ih =>
    rw [readEntries_eq, if_neg hblank, readEntry, hfields,
      (readFields_eq_ok.mp hfields).consistent.build_parts]
    change (k'.skipEmpty.readEntriesChecked >>= _) = _
    rw [ih]
    rfl

/-- Whatever the text is, all checks hold while it is read. -/
theorem Table.parseChecked_eq (text : String) : parseChecked text = .ok (parse text) :=
  Cursor.readEntriesChecked_eq _

end LexGen
