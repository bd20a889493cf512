-- SUMMARY: Carriage returns at line ends, and exactly which tables of compiled automata are read back under their token names.
import Mathlib
import LexGen.Proofs.Table.RoundTrip

/-! # Carriage returns at line ends

A carriage return is written as it is, so at the end of a line it is taken for a part of the line
end. A token name loses it. An alphabet loses its last symbol, and then the table is not read at all,
because the sink of a compiled automaton has a transition on every symbol. -/

namespace LexGen

/-! ## Last symbols -/

theorem Nfa.pairwise_alphabet (m : Nfa) : m.alphabet.Pairwise (· ≤ ·) :=
  (List.pairwise_mergeSort' (· ≤ ·) _).sublist (eraseDups_sublist _)

theorem Expr.getLast?_alphabet_toNfa {e : Expr} {c : Char} :
    e.toNfa.alphabet.getLast? = some c ↔ c ∈ e.symbols ∧ ∀ b ∈ e.symbols, b ≤ c := by
  simp only [getLast?_eq_some_of_pairwise e.toNfa.pairwise_alphabet, mem_alphabet_toNfa]

theorem Text.dropReturn_eq_self {line : List Char} :
    dropReturn line = line ↔ line.getLast? ≠ some '\r' := by
  refine ⟨fun h hlast => ?_, fun h => if_neg h⟩
  rw [dropReturn, if_pos hlast] at h
  obtain ⟨init, rfl⟩ := List.getLast?_eq_some_iff.mp hlast
  simp at h

/-! ## Entries -/

namespace Dfa

/-- All states and symbols of the automaton occur in its transitions, except for a start state and
one more. -/
structure Accounted (d : Dfa) : Prop extends d.toAutomaton.WellFormed where
  size_le : d.size ≤ d.edges.length + 2
  exists_edge : ∀ c ∈ d.alphabet, ∃ e ∈ d.edges, e.label = c

theorem accounted_toDfa (m : Nfa) (token : String) : (m.toDfa.withToken token).Accounted := by
  refine ⟨m.wellFormed_automaton_toDfa, m.size_toDfa_le, fun c hc => ?_⟩
  have hmem : c ∈ m.alphabet := hc
  have hloop : m.toDfa.get? m.subsets.length c = some m.subsets.length := by
    rw [m.get?_toDfa_trap, if_pos hmem]
  exact ⟨⟨m.subsets.length, c, m.subsets.length⟩,
    m.wellFormed_automaton_toDfa.mem_edges.mpr hloop, rfl⟩

theorem token_reread_eq_self {d : Dfa} :
    d.reread.token = d.token ↔ d.token.toList.getLast? ≠ some '\r' := by
  rw [token_reread, ← Text.dropReturn_eq_self, String.ext_iff, String.toList_ofList]

end Dfa

namespace Cursor

variable {d : Dfa} {rest : List (List Char)} {number : Nat}

/-- Transitions that can be read have labels of the alphabet. -/
theorem label_mem_of_nextEdges {alphabet : List Char} {count : Nat}
    {edges edges' new : List (Edge Nat Char)} {k' : Cursor}
    (hnew : ∀ e ∈ new, readEdge count (Dfa.edgeLine e) = .ok e)
    (h : nextEdges alphabet count edges number (new.map Dfa.edgeLine ++ rest) = .ok (edges', k')) :
    ∀ e ∈ new, e.label ∈ alphabet := by
  induction new generalizing edges number with
  | nil => simp
  | cons e new ih =>
    obtain ⟨hread, hnew⟩ := List.forall_mem_cons.mp hnew
    have hempty : (Dfa.edgeLine e).isEmpty = false := by simpa using Dfa.edgeLine_ne_nil e
    rw [List.map_cons, List.cons_append, nextEdges, hempty, if_neg Bool.false_ne_true] at h
    split at h
    · rename_i e' hjoin
      obtain ⟨hread', hlabel, _⟩ := readNewEdge_eq_ok.mp hjoin
      rw [hread] at hread'
      cases hread'
      exact List.forall_mem_cons.mpr ⟨hlabel, ih hnew h⟩
    · cases h

theorem readable_of_readEntry (hd : d.Accounted) {d' : Dfa} {k' : Cursor}
    (h : readEntry ⟨d.entryLines.map Text.dropReturn ++ rest, number⟩ = .ok (d', k')) :
    d.Readable := by
  obtain ⟨x, hx, _⟩ := readEntry_eq_ok.mp h
  rw [d.dropReturn_entryLines] at hx
  cases hx with
  | intro htoken halphabet hcount hstart haccepting hedges hmax =>
    obtain ⟨hsize, hcount⟩ := readNumber_write_eq_ok.mp hcount
    rw [← hcount] at hedges
    have hlabels := label_mem_of_nextEdges
      (fun e => Dfa.readEdge_of_mem_edges hd.toWellFormed hsize) hedges
    refine ⟨hd.toWellFormed, hsize, hd.size_le, fun hlast => ?_⟩
    -- the alphabet that was read lacks the carriage return, but a transition is labelled with it
    obtain ⟨init, hinit⟩ := List.getLast?_eq_some_iff.mp hlast
    have hnodup := hd.alphabet_nodup
    rw [hinit] at hnodup
    have hdrop : Text.dropReturn d.alphabet = init := by
      rw [Text.dropReturn, if_pos hlast, hinit, List.dropLast_concat]
    rw [Text.Escape.dropReturn_encode, hdrop,
      readAlphabet_encode (List.nodup_append.mp hnodup).1] at halphabet
    obtain ⟨e, he, hlabel⟩ := hd.exists_edge '\r' (List.mem_of_getLast? hlast)
    have hmem := hlabels e he
    rw [hlabel, ← Except.ok.inj halphabet] at hmem
    exact (List.nodup_append.mp hnodup).2.2 _ hmem _ (List.mem_singleton_self _) rfl

theorem readable_of_readEntries {table back : Table} (h : ∀ d ∈ table, d.Accounted)
    (hread : readEntries ⟨table.lines.map Text.dropReturn, number⟩ = .ok back) :
    ∀ d ∈ table, d.Readable := by
  induction table generalizing number back with
  | nil => simp
  | cons d ds ih =>
    obtain ⟨hd, hds⟩ := List.forall_mem_cons.mp h
    obtain ⟨rest, hlines, hrest, hskip⟩ := lines_cons d ds
    rw [hlines] at hread
    obtain ⟨hblank, _⟩ | ⟨_, d', k', ds', hentry, hnext, _⟩ := readEntries_eq_ok.mp hread
    · rw [onlyBlanks_entryLines] at hblank
      cases hblank
    · have hreadable := readable_of_readEntry hd hentry
      rw [readEntry_entryLines hreadable hrest] at hentry
      cases hentry
      obtain ⟨number', hskip⟩ := hskip (number + 5 + d.edges.length)
      rw [hskip] at hnext
      exact List.forall_mem_cons.mpr ⟨hreadable, ih hds hnext⟩

end Cursor

/-! ## Tables -/

namespace Table

theorem parse_render_eq_ok {table back : Table} (h : ∀ d ∈ table, d.Accounted) :
    parse table.render = .ok back ↔ (∀ d ∈ table, d.Readable) ∧ back = table.map Dfa.reread := by
  constructor
  · intro hparse
    have hread := hparse
    rw [parse_render_eq] at hread
    have hreadable := Cursor.readable_of_readEntries h hread
    rw [parse_render hreadable] at hparse
    exact ⟨hreadable, (Except.ok.inj hparse).symm⟩
  · rintro ⟨hreadable, rfl⟩
    exact parse_render hreadable

/-- The automata of some expressions under the given token names. -/
def compile (entries : List (Expr × String)) : Table :=
  entries.map fun (e, token) => e.toNfa.toDfa.withToken token

/-- A table of compiled automata is read back under its token names exactly if no token name ends in
a carriage return, no expression has the carriage return as its greatest symbol, and all numbers of
states have numerals. -/
theorem tokens_parse_render_iff (entries : List (Expr × String)) :
    (∃ back, parse (compile entries).render = .ok back ∧
      back.map (·.token) = entries.map (·.2)) ↔
      ∀ x ∈ entries, x.2.toList.getLast? ≠ some '\r' ∧
        ¬ ('\r' ∈ x.1.symbols ∧ ∀ c ∈ x.1.symbols, c ≤ '\r') ∧
        x.1.toNfa.toDfa.size < Text.Numeral.bound := by
  have haccounted : ∀ d ∈ compile entries, d.Accounted := by
    rw [compile, List.forall_mem_map]
    exact fun x _ => Dfa.accounted_toDfa x.1.toNfa x.2
  have htokens : ((compile entries).map Dfa.reread).map (·.token) = entries.map (·.2) ↔
      ∀ x ∈ entries, x.2.toList.getLast? ≠ some '\r' := by
    rw [compile, List.map_map, List.map_map, List.map_inj_left]
    exact forall₂_congr fun x _ => Dfa.token_reread_eq_self
  have hreadable : (∀ d ∈ compile entries, d.Readable) ↔ ∀ x ∈ entries,
      x.1.toNfa.toDfa.size < Text.Numeral.bound ∧
        ¬ ('\r' ∈ x.1.symbols ∧ ∀ c ∈ x.1.symbols, c ≤ '\r') := by
    rw [compile, List.forall_mem_map]
    refine forall₂_congr fun x _ => ?_
    rw [← Expr.getLast?_alphabet_toNfa]
    exact Dfa.readable_toDfa
  constructor
  · rintro ⟨back, hparse, hback⟩
    obtain ⟨hread, rfl⟩ := (parse_render_eq_ok haccounted).mp hparse
    intro x hx
    obtain ⟨hsize, hsymbols⟩ := hreadable.mp hread x hx
    exact ⟨htokens.mp hback x hx, hsymbols, hsize⟩
  · intro h
    have hread := hreadable.mpr fun x hx => ⟨(h x hx).2.2, (h x hx).2.1⟩
    have hback := htokens.mpr fun x hx => (h x hx).1
    exact ⟨_, (parse_render_eq_ok haccounted).mpr ⟨hread, rfl⟩, hback⟩

/-- A token name with a carriage return at its end is not read back, and the table of an expression
with no other symbol than the carriage return is refused at its first transition. -/
theorem tokens_lost_at_return :
    (¬ ∃ back, parse (compile [(.symbol 'a', "t\r")]).render = .ok back ∧
        back.map (·.token) = ["t\r"]) ∧
      parse (compile [(.symbol '\r', "T")]).render = .error ⟨6, .unknownSymbol '\r'⟩ := by
  constructor
  · have hlost : (parse (compile [(.symbol 'a', "t\r")]).render).map (·.map (·.token)) =
        .ok ["t"] := by cbv
    rintro ⟨back, hparse, hback⟩
    rw [hparse, Except.map, hback] at hlost
    exact absurd (Except.ok.inj hlost) (by decide)
  · cbv

end Table

end LexGen
