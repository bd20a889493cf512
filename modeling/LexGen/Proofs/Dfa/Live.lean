-- SUMMARY: Words followed along a transition table, live states, and the sinks in terms of them.
import Mathlib.Tactic.Common
import LexGen.Dfa.Run
import LexGen.Proofs.Lists
import LexGen.Proofs.Reachability

/-! # Live states

A state is live if some word leads from it to an accepting state along transitions of the table. In
a well-formed automaton the table, the list of edges and the list of sinks all tell the same story:
the sinks are the states that are not live. -/

namespace LexGen

namespace Automaton

variable {a : Automaton} {p q : Nat} {c : Char} {u v w : List Char}

/-! ## Words along transitions -/

/-- The state that a word leads to, unless there is a gap on the way. -/
def follow? (a : Automaton) (q : Nat) : List Char → Option Nat
  | [] => some q
  | c :: w => (a.get? q c).bind fun p => follow? a p w

/-- Some word leads from the state to an accepting one. -/
def Live (a : Automaton) (q : Nat) : Prop :=
  ∃ w p, a.follow? q w = some p ∧ p ∈ a.accepting

theorem follow?_append : a.follow? q (u ++ v) = (a.follow? q u).bind fun p => a.follow? p v := by
  induction u generalizing q with
  | nil => rfl
  | cons c u ih =>
    simp only [List.cons_append, follow?, Option.bind_assoc]
    congr 1
    funext p
    exact ih

theorem Live.of_follow? (h : a.follow? q w = some p) (hp : a.Live p) : a.Live q := by
  obtain ⟨v, r, hv, hr⟩ := hp
  exact ⟨w ++ v, r, by rw [follow?_append, h]; exact hv, hr⟩

theorem live_of_mem_accepting (hq : q ∈ a.accepting) : a.Live q :=
  ⟨[], q, rfl, hq⟩

theorem live_iff_of_follow?_none (h : ∀ c, a.get? q c = none) : a.Live q ↔ q ∈ a.accepting := by
  refine ⟨fun ⟨w, p, hw, hp⟩ => ?_, live_of_mem_accepting⟩
  cases w with
  | nil =>
    obtain rfl := Option.some.inj hw
    exact hp
  | cons c w => simp [follow?, h] at hw

/-! ## Well-formed tables -/

/-- The table has a row for each state, in the order of the alphabet, and leads only to states of
the automaton. -/
structure WellFormed (a : Automaton) : Prop where
  start_lt : a.start < a.size
  alphabet_nodup : a.alphabet.Nodup
  accepting_eq : a.accepting = (List.range a.size).filter a.accepting.contains
  row_eq : ∀ q, q < a.size →
    a.rows.getD q [] = a.alphabet.filterMap fun c => (a.get? q c).map (c, ·)
  target_lt : ∀ q c p, a.get? q c = some p → p < a.size

theorem get?_of_size_le (h : a.size ≤ q) : a.get? q c = none := by
  simp only [size] at h
  simp [get?, h]

/-- A row that lists a value or none for each character is the row of its own look-ups. -/
theorem row_eq_of_filterMap {f : Char → Option Nat}
    (h : a.rows.getD q [] = a.alphabet.filterMap fun c => (f c).map (c, ·)) :
    a.rows.getD q [] = a.alphabet.filterMap fun c => (a.get? q c).map (c, ·) := by
  rw [h]
  apply List.filterMap_congr
  intro c hc
  rw [get?, h, lookup_filterMap, if_pos hc]

/-- Two tables with rows in the order of the alphabet are equal if they look up the same. -/
theorem ext_get? {a b : Automaton} (halphabet : a.alphabet = b.alphabet) (hsize : a.size = b.size)
    (hstart : a.start = b.start) (haccepting : a.accepting = b.accepting)
    (hget : ∀ q c, a.get? q c = b.get? q c)
    (ha : ∀ q, q < a.size →
      a.rows.getD q [] = a.alphabet.filterMap fun c => (a.get? q c).map (c, ·))
    (hb : ∀ q, q < b.size →
      b.rows.getD q [] = b.alphabet.filterMap fun c => (b.get? q c).map (c, ·)) : a = b := by
  have hrows : a.rows = b.rows := by
    apply Array.ext hsize
    intro q hqa hqb
    have hrow : a.rows.getD q [] = b.rows.getD q [] := by
      rw [ha q hqa, hb q hqb, halphabet]
      simp only [hget]
    simpa [hqa, hqb] using hrow
  obtain ⟨alphabet, rows, start, accepting⟩ := a
  obtain ⟨alphabet', rows', start', accepting'⟩ := b
  subst halphabet hrows hstart haccepting
  rfl

namespace WellFormed

theorem lt_of_get? (h : a.get? q c = some p) : q < a.size := by
  by_contra hq
  rw [get?_of_size_le (Nat.le_of_not_lt hq)] at h
  cases h

theorem mem_alphabet_of_get? (ha : a.WellFormed) (h : a.get? q c = some p) : c ∈ a.alphabet := by
  by_contra hc
  have hq := lt_of_get? h
  rw [get?, ha.row_eq q hq, lookup_filterMap, if_neg hc] at h
  cases h

theorem lt_of_mem_accepting (ha : a.WellFormed) (h : q ∈ a.accepting) : q < a.size := by
  rw [ha.accepting_eq, List.mem_filter] at h
  exact List.mem_range.mp h.1

theorem mem_edges (ha : a.WellFormed) {e : Edge Nat Char} :
    e ∈ a.edges ↔ a.get? e.source e.label = some e.target := by
  obtain ⟨q, c, p⟩ := e
  simp only [edges, List.mem_flatMap, List.mem_range, List.mem_filterMap, Option.map_eq_some_iff]
  refine ⟨fun ⟨q', _, c', _, p', hget, he⟩ => ?_, fun h => ?_⟩
  · cases he
    exact hget
  · exact ⟨q, lt_of_get? h, c, ha.mem_alphabet_of_get? h, p, h, rfl⟩

theorem increasing_edges (ha : a.WellFormed) :
    a.edges.Pairwise fun e e' => e.source < e'.source ∨
      e.source = e'.source ∧ a.alphabet.idxOf e.label < a.alphabet.idxOf e'.label := by
  rw [edges, List.pairwise_flatMap]
  constructor
  · intro q _
    rw [List.pairwise_filterMap]
    refine (pairwise_idxOf ha.alphabet_nodup).imp fun hlt e he e' he' => ?_
    obtain ⟨p, _, rfl⟩ := Option.map_eq_some_iff.mp he
    obtain ⟨p', _, rfl⟩ := Option.map_eq_some_iff.mp he'
    exact .inr ⟨rfl, hlt⟩
  · refine List.pairwise_lt_range.imp fun hlt e he e' he' => ?_
    obtain ⟨c, _, he⟩ := List.mem_filterMap.mp he
    obtain ⟨c', _, he'⟩ := List.mem_filterMap.mp he'
    obtain ⟨p, _, rfl⟩ := Option.map_eq_some_iff.mp he
    obtain ⟨p', _, rfl⟩ := Option.map_eq_some_iff.mp he'
    exact .inl hlt

theorem nodup_edges (ha : a.WellFormed) : a.edges.Nodup := by
  refine ha.increasing_edges.imp fun h heq => ?_
  subst heq
  rcases h with h | ⟨_, h⟩
  · exact Nat.lt_irrefl _ h
  · exact Nat.lt_irrefl _ h

/-- The transitions listed for a state and a character are the one that is looked up, or none. -/
theorem filter_edges (ha : a.WellFormed) (p : Nat) (c : Char) :
    (a.edges.filter fun e => e.source == p && e.label == c) =
      ((a.get? p c).map (⟨p, c, ·⟩)).toList := by
  have hmem : ∀ e, (e ∈ a.edges.filter fun e => e.source == p && e.label == c) ↔
      e.source = p ∧ e.label = c ∧ a.get? p c = some e.target := by
    intro e
    rw [List.mem_filter, ha.mem_edges, Bool.and_eq_true, beq_iff_eq, beq_iff_eq]
    constructor
    · rintro ⟨hget, rfl, rfl⟩
      exact ⟨rfl, rfl, hget⟩
    · rintro ⟨rfl, rfl, hget⟩
      exact ⟨hget, rfl, rfl⟩
  cases hget : a.get? p c with
  | none =>
    refine List.eq_nil_iff_forall_not_mem.mpr fun e he => ?_
    obtain ⟨_, _, htarget⟩ := (hmem e).mp he
    rw [hget] at htarget
    cases htarget
  | some q =>
    refine List.perm_singleton.mp ?_
    rw [List.perm_ext_iff_of_nodup (ha.nodup_edges.filter _) (List.nodup_singleton _)]
    rintro ⟨p', c', q'⟩
    rw [hmem, hget, List.mem_singleton, Edge.mk.injEq, Option.some.injEq, @eq_comm _ q]

theorem leadsTo_iff (ha : a.WellFormed) :
    Graph.LeadsTo a.edges q p ↔ ∃ w, a.follow? q w = some p := by
  constructor
  · intro h
    induction h using Relation.ReflTransGen.head_induction_on with
    | refl => exact ⟨[], rfl⟩
    | head hstep _ ih =>
      obtain ⟨e, he, rfl, rfl⟩ := hstep
      obtain ⟨w, hw⟩ := ih
      exact ⟨e.label :: w, by simp [follow?, ha.mem_edges.mp he, hw]⟩
  · intro ⟨w, h⟩
    induction w generalizing q with
    | nil =>
      obtain rfl := Option.some.inj h
      exact .refl
    | cons c w ih =>
      obtain ⟨r, hget, hrest⟩ := Option.bind_eq_some_iff.mp h
      exact .head ⟨⟨q, c, r⟩, ha.mem_edges.mpr hget, rfl, rfl⟩ (ih hrest)

theorem mem_deadStates (ha : a.WellFormed) : q ∈ a.deadStates ↔ q < a.size ∧ ¬ a.Live q := by
  have hlive : (∃ p ∈ a.accepting, Graph.LeadsTo a.edges q p) ↔ a.Live q := by
    refine ⟨fun ⟨p, hp, h⟩ => ?_, fun ⟨w, p, h, hp⟩ => ⟨p, hp, ha.leadsTo_iff.mpr ⟨w, h⟩⟩⟩
    obtain ⟨w, hw⟩ := ha.leadsTo_iff.mp h
    exact ⟨w, p, hw, hp⟩
  rw [deadStates, Graph.mem_deadEnds, List.mem_range, hlive]

end WellFormed

end Automaton

/-! ## Sinks, trap and acceptance -/

namespace Dfa

variable {d : Dfa} {q : Nat} {c : Char} {u w : List Char}

/-- The sinks are the states that are not live, and the trap is not live either. -/
structure WellFormed (d : Dfa) : Prop extends d.toAutomaton.WellFormed where
  sinks_eq : d.sinks = d.deadStates
  trap_dead : ¬ d.Live d.trap

theorem WellFormed.withToken (hd : d.WellFormed) (token : String) :
    (d.withToken token).WellFormed :=
  ⟨hd.toWellFormed, hd.sinks_eq, hd.trap_dead⟩

theorem WellFormed.withSinks (hd : d.WellFormed) : d.withSinks.WellFormed :=
  ⟨hd.toWellFormed, rfl, hd.trap_dead⟩

theorem WellFormed.isSink_iff (hd : d.WellFormed) (hq : q < d.size ∨ q = d.trap) :
    d.isSink q = true ↔ ¬ d.Live q := by
  rw [isSink, Bool.or_eq_true, beq_iff_eq, List.contains_iff_mem, hd.sinks_eq,
    hd.toWellFormed.mem_deadStates]
  refine ⟨fun h => ?_, fun h => ?_⟩
  · rcases h with rfl | h
    · exact hd.trap_dead
    · exact h.2
  · rcases hq with hq | hq
    · exact .inr ⟨hq, h⟩
    · exact .inl hq

/-- One step of the walk comes to a sink exactly if no transition leads to a live state. -/
theorem WellFormed.isSink_step (hd : d.WellFormed) :
    d.isSink ((d.get? q c).getD d.trap) = true ↔ ∀ p, d.get? q c = some p → ¬ d.Live p := by
  cases hget : d.get? q c with
  | none => simp [isSink]
  | some p =>
    rw [Option.getD_some, hd.isSink_iff (.inl (hd.target_lt q c p hget))]
    simp

theorem run_eq (d : Dfa) (q : Nat) (w : List Char) : d.run q w = (d.follow? q w).getD d.trap := by
  induction w generalizing q with
  | nil => rfl
  | cons c w ih =>
    rw [run, Automaton.follow?]
    cases d.get? q c with
    | none => rfl
    | some p => exact ih p

theorem WellFormed.accept_iff (hd : d.WellFormed) :
    d.accept w = true ↔ ∃ p, d.follow? d.start w = some p ∧ p ∈ d.accepting := by
  rw [accept, run_eq, isAccepting, List.contains_iff_mem]
  cases d.follow? d.start w with
  | none =>
    have htrap : d.trap ∉ d.accepting := fun h => hd.trap_dead (Automaton.live_of_mem_accepting h)
    simp [htrap]
  | some p => simp

/-- The word is the beginning of an accepted one. -/
def Extendable (d : Dfa) (u : List Char) : Prop :=
  ∃ v, d.accept (u ++ v) = true

theorem WellFormed.extendable_iff (hd : d.WellFormed) :
    d.Extendable u ↔ ∃ q, d.follow? d.start u = some q ∧ d.Live q := by
  simp only [Extendable, hd.accept_iff, Automaton.follow?_append, Option.bind_eq_some_iff]
  refine ⟨fun ⟨v, p, ⟨q, hu, hv⟩, hp⟩ => ⟨q, hu, v, p, hv, hp⟩, ?_⟩
  intro ⟨q, hu, v, p, hv, hp⟩
  exact ⟨v, p, ⟨q, hu, hv⟩, hp⟩

end Dfa

end LexGen
