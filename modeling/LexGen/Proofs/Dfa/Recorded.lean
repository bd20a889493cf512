-- SUMMARY: The transitions recorded while an automaton was made: the look-up follows all of them, and the list has each of them once.
import Mathlib
import LexGen.Proofs.Assertions.Turns
import LexGen.Proofs.Dfa.Public

/-! # Recorded transitions

The subset construction records transitions as it finds them, and the reader records one for each line
of a block. All of them can be looked up, whatever they are on, but the list of transitions goes along
the alphabet. It misses none of them, because the construction reads symbols of the alphabet only, and
the reader refuses a transition on any other character. -/

namespace LexGen

open Exploration (Keyed ofFound Explored)

/-- The transitions that were recorded for the automaton: by the search for it, with the loops of the
sink, or line by line from an entry. -/
inductive Dfa.Recorded : Dfa → List (Edge Nat Char) → Prop where
  | compiled {e : Expr} {closures : List (List Nat)} {x y : Exploration} {start : Nat} {fresh : Bool}
      (hclosures : e.toNfa.solveClosures = .ok closures)
      (hstart : Exploration.intern e.toNfa ⟨[], [], [], []⟩ (e.toNfa.closureOf closures 0) =
        .ok (x, start, fresh))
      (hexplore : Exploration.explore e.toNfa closures { x with stack := [start] } = .ok y) :
      Recorded e.toNfa.toDfa ((y.parts e.toNfa).delta.map (y.parts e.toNfa).positions)
  | read {k k' : Cursor} {x : Entry} (h : k.readFields = .ok (x, k')) : Recorded x.dfa x.edges
  | renamed {d : Dfa} {edges : List (Edge Nat Char)} (h : Recorded d edges) (token : String) :
      Recorded (d.withToken token) edges
  | reclassified {d : Dfa} {edges : List (Edge Nat Char)} (h : Recorded d edges) :
      Recorded d.withSinks edges

/-! ## The search -/

namespace Nfa

variable {m : Nfa} {table : List (Edge Nat Char)}

/-- The loops of the sink are on one symbol each, and no other transition starts at the sink. -/
theorem keyed_searchedEdges (h : Explored m m.subsets [] table) (hkeyed : Keyed table) :
    Keyed (m.searchedEdges table) := by
  refine List.pairwise_append.mpr ⟨hkeyed, ?_, fun e he e' he' hsource => ?_⟩
  · have hnodup : m.alphabet.Nodup := m.wellFormed_automaton_toDfa.alphabet_nodup
    rw [List.pairwise_map]
    refine hnodup.imp ?_
    exact fun hne _ => hne
  · obtain ⟨c, _, rfl⟩ := List.mem_map.mp he'
    exact absurd hsource (Nat.ne_of_lt (ends_lt_of_mem_table h he).1)

/-- The search ends with all sets found. It has recorded no two transitions from one state on one
symbol. -/
theorem exists_searchedEdges (hm : m.WellFormed) {closures : List (List Nat)} {x y : Exploration}
    {start : Nat} {fresh : Bool} (hclosures : m.solveClosures = .ok closures)
    (hstart : Exploration.intern m ⟨[], [], [], []⟩ (m.closureOf closures 0) = .ok (x, start, fresh))
    (hexplore : Exploration.explore m closures { x with stack := [start] } = .ok y) :
    ∃ table, (y.parts m).delta.map (y.parts m).positions = m.searchedEdges table ∧
      Explored m m.subsets [] table ∧ Keyed table := by
  have hadvance := advance_eq hm hclosures
  rw [intern_closureOf hm hclosures] at hstart
  cases hstart
  obtain ⟨table, htable, hexplored⟩ := Exploration.explore_ofFound hadvance m.standing_initial
  obtain ⟨popped, pushed, z, hrun, hempty⟩ :=
    (Exploration.stands_initial m).exists_run hadvance
  obtain rfl : ofFound m m.subsets table [] = y := Except.ok.inj (htable.symm.trans hexplore)
  obtain rfl : z = ofFound m m.subsets table [] := by
    have hz := hrun.explore_eq.trans (Exploration.explore_nil z hempty)
    exact Except.ok.inj (hz.symm.trans hexplore)
  exact ⟨table, map_positions_delta hexplored, hexplored,
    (Exploration.orderly hadvance hrun).keyed⟩

end Nfa

/-! ## The look-up and the list -/

namespace Dfa.Recorded

variable {d : Dfa} {edges : List (Edge Nat Char)}

theorem get?_eq_some (h : d.Recorded edges) (p : Nat) (c : Char) (q : Nat) :
    d.get? p c = some q ↔ ⟨p, c, q⟩ ∈ edges := by
  induction h with
  | @compiled e _ _ _ _ _ hclosures hstart hexplore =>
    obtain ⟨table, hedges, hexplored, _⟩ :=
      Nfa.exists_searchedEdges e.wellFormed_toNfa hclosures hstart hexplore
    rw [hedges, Nfa.mem_searchedEdges hexplored, e.toNfa.wellFormed_automaton_toDfa.mem_edges]
  | @read k k' x h =>
    rw [Entry.dfa, Automaton.toAutomaton_toEntry]
    exact (Cursor.readFields_eq_ok.mp h).consistent.get?_eq_some
  | renamed _ token ih => exact ih
  | reclassified _ ih => exact ih

theorem keyed (h : d.Recorded edges) : Keyed edges := by
  induction h with
  | @compiled e _ _ _ _ _ hclosures hstart hexplore =>
    obtain ⟨table, hedges, hexplored, hkeyed⟩ :=
      Nfa.exists_searchedEdges e.wellFormed_toNfa hclosures hstart hexplore
    rw [hedges]
    exact Nfa.keyed_searchedEdges hexplored hkeyed
  | read h => exact (Cursor.readFields_eq_ok.mp h).consistent.pairwise
  | renamed _ token ih => exact ih
  | reclassified _ ih => exact ih

theorem wellFormed (h : d.Recorded edges) : d.WellFormed := by
  induction h with
  | @compiled e => exact e.toNfa.wellFormed_toDfa
  | read h => exact (Cursor.readFields_eq_ok.mp h).wellFormed
  | renamed _ token ih => exact ih.withToken token
  | reclassified _ ih => exact ih.withSinks

/-- The list has the recorded transitions, each of them once, in another order. -/
theorem perm_edges (h : d.Recorded edges) : edges.Perm d.edges := by
  have hnodup : edges.Nodup :=
    h.keyed.imp fun hkey heq => hkey (congrArg Edge.source heq) (congrArg Edge.label heq)
  rw [List.perm_ext_iff_of_nodup hnodup h.wellFormed.nodup_edges]
  rintro ⟨p, c, q⟩
  rw [h.wellFormed.mem_edges, h.get?_eq_some]

/-- An entry with a transition on `b` and the alphabet `a` is refused; it would be followed and not
listed. -/
example :
    (Automaton.ofEdges ['a'] 1 0 [0] [⟨0, 'b', 0⟩]).get? 0 'b' = some 0 ∧
      (Automaton.ofEdges ['a'] 1 0 [0] [⟨0, 'b', 0⟩]).edges = [] := by
  decide

end Dfa.Recorded

theorem Dfa.Public.exists_recorded {d : Dfa} (hd : d.Public) : ∃ edges, d.Recorded edges := by
  induction hd with
  | compiled e =>
    have hm := e.wellFormed_toNfa
    have hclosures := e.toNfa.solveClosures_eq
    obtain ⟨_, hexplore, _⟩ := Exploration.explore_ofFound (Nfa.advance_eq hm hclosures)
      e.toNfa.standing_initial
    exact ⟨_, .compiled hclosures (Nfa.intern_closureOf hm hclosures) hexplore⟩
  | @read text table d h hd =>
    obtain ⟨k, x, k', hx, rfl⟩ := Cursor.exists_holds_of_readEntries h d hd
    exact ⟨x.edges, .read (Cursor.readFields_eq_ok.mpr hx)⟩
  | renamed _ token ih =>
    obtain ⟨edges, h⟩ := ih
    exact ⟨edges, h.renamed token⟩
  | reclassified _ ih =>
    obtain ⟨edges, h⟩ := ih
    exact ⟨edges, h.reclassified⟩

end LexGen
