-- SUMMARY: The list of transitions and the look-up of transitions: both tell the same, by the numbers of the states and by their names.
import Mathlib
import LexGen.Csv
import LexGen.Proofs.Dfa.Recorded
import LexGen.Proofs.State.DeadEnds
import LexGen.Proofs.State.Names
import LexGen.Proofs.Table.NormalForm
import LexGen.Table.Printer

/-! # Two views of the transitions

Runs look transitions up; sinks, listings and written blocks go through the list of all transitions,
which leaves out whatever is not on a character of the alphabet. What was recorded while the automaton
was made is on such characters only, so the list has each transition that can be looked up, once, and
no other. It is in the order of the states and, for one state, of the alphabet. -/

namespace LexGen

open Relation (ReflTransGen)

/-! ## States by their names -/

namespace State

theorem labelNumber?_write {n : Nat} (h : n < Text.Numeral.bound) :
    labelNumber? (String.ofList (Text.Numeral.write n)) = some n := by
  rw [labelNumber?, String.toList_ofList, Text.Numeral.read?_write, if_pos h]

theorem index?_numbered {n : Nat} (h : n < Text.Numeral.bound) : (numbered n).index? = some n := by
  have hnumber : (numbered n).number? = some n := labelNumber?_write h
  rw [index?, hnumber, Option.filter_some, if_pos BEq.rfl]

theorem cmp_numbered_numbered {m n : Nat} (hmn : m < n) (hn : n < Text.Numeral.bound) :
    (numbered m).cmp (numbered n) = .lt := by
  rw [numbered, numbered, ofLabel, ofLabel, cmp, cmpLabel,
    labelNumber?_write (Nat.lt_trans hmn hn), labelNumber?_write hn]
  exact congrArg (Ordering.then · _) (Nat.compare_eq_lt.mpr hmn)

theorem cmp_numbered_sink {n : Nat} (h : n < Text.Numeral.bound) (ordinal : Option Nat) :
    (numbered n).cmp (.simple sinkLabel ordinal) = .lt := by
  have hsink : labelNumber? sinkLabel = none := by decide
  rw [numbered, ofLabel, cmp, cmpLabel, labelNumber?_write h, hsink]

end State

namespace Dfa

variable {d : Dfa} {p q : Nat} {s : State} {c : Char}

/-- The transitions between named states. -/
def transitions (d : Dfa) : List (Edge State Char) :=
  d.edges.map (Edge.mapNodes d.stateAt)

theorem stateAt_beq_stateAt (d : Dfa) (p q : Nat) :
    (d.stateAt p == d.stateAt q) = decide (p = q) := by
  by_cases hpq : p = q
  · rw [hpq, BEq.rfl, decide_eq_true rfl]
  rw [decide_eq_false hpq]
  by_cases hp : d.trapLabelled = true → p ≠ d.trap
  · rw [stateAt_eq_numbered hp]
    by_cases hq : d.trapLabelled = true → q ≠ d.trap
    · rw [stateAt_eq_numbered hq, State.numbered_beq_numbered, decide_eq_false hpq]
    · obtain ⟨hlabelled, rfl⟩ : d.trapLabelled = true ∧ q = d.trap := by simpa using hq
      obtain ⟨ordinal, hname⟩ := exists_stateAt_trap hlabelled
      rw [hname, State.numbered_beq_sink]
  · obtain ⟨hlabelled, rfl⟩ : d.trapLabelled = true ∧ p = d.trap := by simpa using hp
    obtain ⟨ordinal, hname⟩ := exists_stateAt_trap hlabelled
    rw [stateAt_eq_numbered fun _ => Ne.symm hpq, hname, BEq.comm, State.numbered_beq_sink]

theorem beq_of_find? (h : d.find? s = some q) : (d.stateAt q == s) = true := by
  rw [find?] at h
  split at h
  · rename_i htrap
    cases h
    exact BEq.symm (Bool.and_eq_true_iff.mp htrap).2
  · obtain ⟨hindex, hstate⟩ := Option.filter_eq_some_iff.mp h
    have htrap : d.trapLabelled = false ∨ q ≠ d.trap := by
      simpa using (Bool.and_eq_true_iff.mp hstate).2
    rw [stateAt_eq_numbered fun hlabelled => htrap.resolve_left (by simp [hlabelled])]
    exact State.beq_of_index? hindex

theorem find?_stateAt (hq : q < d.size) (hbound : q < Text.Numeral.bound) :
    d.find? (d.stateAt q) = some q := by
  rw [find?, stateAt_beq_stateAt]
  by_cases htrap : d.trapLabelled = true → q ≠ d.trap
  · have hlabelled : (d.trapLabelled && decide (q = d.trap)) = false := by simpa using htrap
    rw [hlabelled, if_neg Bool.false_ne_true, stateAt_eq_numbered htrap,
      State.index?_numbered hbound, Option.filter_some, if_pos]
    have hstate : d.trapLabelled = false ∨ q ≠ d.trap := by
      rwa [← Bool.not_eq_true, ← imp_iff_not_or]
    simpa [hq] using hstate
  · obtain ⟨hlabelled, rfl⟩ : d.trapLabelled = true ∧ q = d.trap := by simpa using htrap
    simp [hlabelled]

theorem filter_transitions (hd : d.WellFormed) (h : d.find? s = some q) (c : Char) :
    ((d.transitions.filter fun e => e.source == s && e.label == c).map (·.target)) =
      (d.getNamed? s c).toList := by
  have hsource : ∀ p, (d.stateAt p == s) = (p == q) := by
    intro p
    rw [← BEq.congr_right (beq_of_find? h), stateAt_beq_stateAt, Bool.beq_eq_decide_eq]
  rw [transitions, List.filter_map, List.map_map, getNamed?, h, Option.bind_some]
  simp only [Function.comp_def, Edge.mapNodes, hsource]
  rw [hd.filter_edges]
  cases d.get? q c with
  | none => rfl
  | some p => rfl

theorem getNamed?_eq_none (h : ∀ q, q < d.size → (d.stateAt q == s) = false) (c : Char) :
    d.getNamed? s c = none := by
  rw [getNamed?, Option.map_eq_none_iff, Option.bind_eq_none_iff]
  intro q hq
  refine Automaton.get?_of_size_le (Nat.le_of_not_lt fun hlt => ?_)
  have hbeq := beq_of_find? hq
  rw [h q hlt] at hbeq
  cases hbeq

/-- A trap with the label `S` has the greatest number, and its name comes last. -/
theorem cmp_stateAt (hsize : d.trapLabelled = true → d.size ≤ d.trap + 1) (hpq : p < q)
    (hq : q < d.size) (hbound : q < Text.Numeral.bound) :
    (d.stateAt p).cmp (d.stateAt q) = .lt := by
  have hp : d.trapLabelled = true → p ≠ d.trap := by
    intro hlabelled
    have := hsize hlabelled
    omega
  rw [stateAt_eq_numbered hp]
  by_cases htrap : d.trapLabelled = true → q ≠ d.trap
  · rw [stateAt_eq_numbered htrap]
    exact State.cmp_numbered_numbered hpq hbound
  · obtain ⟨hlabelled, rfl⟩ : d.trapLabelled = true ∧ q = d.trap := by simpa using htrap
    obtain ⟨ordinal, hname⟩ := exists_stateAt_trap hlabelled
    rw [hname]
    exact State.cmp_numbered_sink (Nat.lt_trans hpq hbound) ordinal

theorem increasing_transitions (hd : d.WellFormed)
    (hsize : d.trapLabelled = true → d.size ≤ d.trap + 1) (hbound : d.size ≤ Text.Numeral.bound) :
    d.transitions.Pairwise fun e e' => e.source.cmp e'.source = .lt ∨
      (e.source == e'.source) = true ∧ d.alphabet.idxOf e.label < d.alphabet.idxOf e'.label := by
  rw [transitions, List.pairwise_map]
  refine hd.increasing_edges.imp_of_mem fun _ he' h => ?_
  rcases h with hlt | ⟨hsource, hlabel⟩
  · have hq := Automaton.WellFormed.lt_of_get? (hd.mem_edges.mp he')
    exact .inl (cmp_stateAt hsize hlt hq (Nat.lt_of_lt_of_le hq hbound))
  · refine .inr ⟨?_, hlabel⟩
    rw [Edge.mapNodes, Edge.mapNodes, hsource]
    exact BEq.rfl

theorem Public.size_le_trap (hd : d.Public) : d.trapLabelled = true → d.size ≤ d.trap + 1 := by
  induction hd with
  | compiled e =>
    intro _
    exact Nat.le_of_eq e.toNfa.size_toDfa
  | @read text table d h hd =>
    intro hlabelled
    obtain ⟨xs, hspells, htable⟩ := Cursor.spells_of_readEntries h
    obtain ⟨x, _, _, _, hx⟩ := hspells.exists_of_mem htable d hd
    have hsinks : d.sinks = [] := by rwa [hx.trapLabelled_eq, List.isEmpty_iff] at hlabelled
    rw [hx.trap_eq, hsinks]
    exact Nat.le_succ d.size
  | renamed _ token ih => exact ih
  | reclassified _ ih => exact ih

/-! ## Every automaton -/

/-- The list of transitions and the look-up of transitions tell the same, and so does what is made of
the list: the sinks, the listing and the written block. -/
structure ViewsAgree (d : Dfa) : Prop where
  recorded : ∃ edges, d.Recorded edges
  /-- What was recorded while the automaton was made can be looked up, and nothing else can. -/
  get?_eq_some : ∀ edges, d.Recorded edges → ∀ p c q, d.get? p c = some q ↔ ⟨p, c, q⟩ ∈ edges
  perm : ∀ edges, d.Recorded edges → edges.Perm d.edges
  /-- The rows have no transition that is not listed. -/
  stored : ∀ p c q, (c, q) ∈ d.rows.getD p [] ↔ ⟨p, c, q⟩ ∈ d.edges
  /-- A transition that can be looked up is listed once, and no other one is. -/
  listed : ∀ p c, (d.edges.filter fun e => e.source == p && e.label == c) =
    ((d.get? p c).map (⟨p, c, ·⟩)).toList
  increasing : d.edges.Pairwise fun e e' => e.source < e'.source ∨
    e.source = e'.source ∧ d.alphabet.idxOf e.label < d.alphabet.idxOf e'.label
  listed_named : ∀ s q, d.find? s = some q → ∀ c,
    ((d.transitions.filter fun e => e.source == s && e.label == c).map (·.target)) =
      (d.getNamed? s c).toList
  unlisted : ∀ s, (∀ q, q < d.size → (d.stateAt q == s) = false) →
    ∀ c, d.getNamed? s c = none ∧ ∀ e ∈ d.transitions, (e.source == s) = false
  /-- The order of the names is that of the numbers, as far as numbers have numerals. -/
  increasing_named : d.size ≤ Text.Numeral.bound →
    d.transitions.Pairwise fun e e' => e.source.cmp e'.source = .lt ∨
      (e.source == e'.source) = true ∧ d.alphabet.idxOf e.label < d.alphabet.idxOf e'.label
  find?_eq_some : ∀ q, q < d.size → q < Text.Numeral.bound → d.find? (d.stateAt q) = some q
  sinks : ∀ q, q ∈ d.sinks ↔ q < d.size ∧
    ∀ p, ReflTransGen (fun a b => ∃ c, d.get? a c = some b) q p → d.isAccepting p = false
  listing : ∀ row, row ∈ d.csvRows ↔ ∃ p c q, d.get? p c = some q ∧
    row = ⟨d.stateAt p, some c, d.stateAt q, d.isAccepting q⟩
  block : ∀ line, line ∈ d.blockLines.drop 4 ↔ ∃ p c q, d.get? p c = some q ∧
    line = edgeLine ⟨p, c, q⟩

namespace WellFormed

/-- A row in the order of the alphabet has no transition on another character. -/
theorem mem_row_iff (hd : d.WellFormed) :
    (c, q) ∈ d.rows.getD p [] ↔ ⟨p, c, q⟩ ∈ d.edges := by
  rw [hd.mem_edges]
  by_cases hp : p < d.size
  · rw [hd.row_eq p hp, List.mem_filterMap]
    constructor
    · rintro ⟨c', _, h⟩
      obtain ⟨q', hget, heq⟩ := Option.map_eq_some_iff.mp h
      cases heq
      exact hget
    · exact fun hget => ⟨c, hd.mem_alphabet_of_get? hget, Option.map_eq_some_iff.mpr ⟨q, hget, rfl⟩⟩
  · have hle : d.rows.size ≤ p := Nat.le_of_not_lt hp
    rw [Automaton.get?_of_size_le hle]
    simp [hle]

theorem leadsTo_eq (hd : d.WellFormed) :
    Graph.LeadsTo d.edges = ReflTransGen fun a b => ∃ c, d.get? a c = some b := by
  rw [Graph.LeadsTo]
  congr 1
  funext a b
  rw [eq_iff_iff]
  constructor
  · rintro ⟨e, he, rfl, rfl⟩
    exact ⟨e.label, hd.mem_edges.mp he⟩
  · rintro ⟨c, h⟩
    exact ⟨⟨a, c, b⟩, hd.mem_edges.mpr h, rfl, rfl⟩

theorem mem_sinks_iff (hd : d.WellFormed) : q ∈ d.sinks ↔ q < d.size ∧
    ∀ p, ReflTransGen (fun a b => ∃ c, d.get? a c = some b) q p → d.isAccepting p = false := by
  rw [hd.sinks_eq, Automaton.deadStates, Graph.mem_deadEnds, List.mem_range, hd.leadsTo_eq]
  refine and_congr_right fun _ => ⟨fun h p hp => ?_, fun h => ?_⟩
  · rw [Bool.eq_false_iff, Ne, isAccepting, List.contains_iff_mem]
    exact fun hmem => h ⟨p, hmem, hp⟩
  · rintro ⟨p, hp, hqp⟩
    have hfalse := h p hqp
    rw [isAccepting, List.contains_iff_mem.mpr hp] at hfalse
    cases hfalse

/-- What is made of each transition of the list is made of each that can be looked up. -/
theorem mem_map_edges (hd : d.WellFormed) {α : Type} {f : Edge Nat Char → α} {a : α} :
    a ∈ d.edges.map f ↔ ∃ p c q, d.get? p c = some q ∧ a = f ⟨p, c, q⟩ := by
  rw [List.mem_map]
  constructor
  · rintro ⟨⟨p, c, q⟩, he, rfl⟩
    exact ⟨p, c, q, hd.mem_edges.mp he, rfl⟩
  · rintro ⟨p, c, q, hget, rfl⟩
    exact ⟨⟨p, c, q⟩, hd.mem_edges.mpr hget, rfl⟩

end WellFormed

/-- However an automaton was made, its list of transitions and the look-up agree. -/
theorem Public.viewsAgree (hd : d.Public) : d.ViewsAgree := by
  have hwf := hd.wellFormed
  constructor
  case recorded => exact hd.exists_recorded
  case get?_eq_some => exact fun edges h => h.get?_eq_some
  case perm => exact fun edges h => h.perm_edges
  case stored => exact fun p c q => hwf.mem_row_iff
  case listed => exact hwf.filter_edges
  case increasing => exact hwf.increasing_edges
  case listed_named => exact fun s q h c => filter_transitions hwf h c
  case unlisted =>
    intro s hs c
    refine ⟨getNamed?_eq_none hs c, fun e he => ?_⟩
    obtain ⟨p, _, _, hget, rfl⟩ := hwf.mem_map_edges.mp he
    exact hs p (Automaton.WellFormed.lt_of_get? hget)
  case increasing_named => exact fun hbound => increasing_transitions hwf hd.size_le_trap hbound
  case find?_eq_some => exact fun q => find?_stateAt
  case sinks => exact fun q => hwf.mem_sinks_iff
  case listing => exact fun row => hwf.mem_map_edges
  case block => exact fun line => hwf.mem_map_edges

/-- In a table with a repeated symbol and transitions out of order, the list is in order. -/
theorem Public.viewsAgree_repeated :
    ∃ d : Dfa, d.Public ∧ d.ViewsAgree ∧ d.alphabet = ['b', 'a'] ∧
      d.edges = [⟨0, 'b', 1⟩, ⟨0, 'a', 0⟩, ⟨1, 'a', 0⟩] := by
  have hread : (Table.parse "T\nbab\n2\n0\n1\n1,'a',0\n0,'a',0\n0,'b',1\n").map
      (·.map fun d => (d.alphabet, d.edges)) =
        .ok [(['b', 'a'], [⟨0, 'b', 1⟩, ⟨0, 'a', 0⟩, ⟨1, 'a', 0⟩])] := by
    cbv
  obtain ⟨table, hparse, htable⟩ := map_eq_ok_iff.mp hread
  obtain ⟨d, rfl, hd⟩ := List.map_eq_singleton_iff.mp htable
  obtain ⟨halphabet, hedges⟩ := Prod.mk.inj hd
  have hpublic : d.Public := .read hparse (List.mem_singleton_self d)
  exact ⟨d, hpublic, hpublic.viewsAgree, halphabet, hedges⟩

end Dfa

end LexGen
