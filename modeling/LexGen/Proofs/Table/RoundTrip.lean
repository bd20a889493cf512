-- SUMMARY: Tables written and read: the transitions determine the automaton, and written entries are read one by one.
import Mathlib
import LexGen.Dfa.Named
import LexGen.Proofs.Dfa.Longest
import LexGen.Proofs.Expr.Parser
import LexGen.Proofs.Nfa.Subsets
import LexGen.Proofs.Nfa.Thompson
import LexGen.Proofs.Table.Line
import LexGen.Proofs.Table.Reader

/-! # Written tables are read back

The transitions of a well-formed automaton are written without repetition, and the reader puts the
same table together from them. What it makes of the table is another automaton: the trap is the
first sink, and all states are labelled with their numbers. -/

namespace LexGen

/-! ## Tables from transitions -/

namespace Automaton.WellFormed

variable {a : Automaton}

theorem pairwise_edges (ha : a.WellFormed) :
    a.edges.Pairwise fun e e' => e.source = e'.source → e.label ≠ e'.label := by
  refine ha.increasing_edges.imp fun h hsource hlabel => ?_
  rcases h with hlt | ⟨_, hlt⟩
  · rw [hsource] at hlt
    exact Nat.lt_irrefl _ hlt
  · rw [hlabel] at hlt
    exact Nat.lt_irrefl _ hlt

theorem find?_edges (ha : a.WellFormed) {edges : List (Edge Nat Char)}
    (hedges : ∀ e, e ∈ edges ↔ e ∈ a.edges) (q : Nat) (c : Char) :
    (edges.find? fun e => e.source == q && e.label == c).map (·.target) = a.get? q c := by
  cases hfind : edges.find? fun e => e.source == q && e.label == c with
  | some e =>
    have he := ha.mem_edges.mp ((hedges e).mp (List.mem_of_find?_eq_some hfind))
    have hkey := List.find?_some hfind
    simp only [Bool.and_eq_true, beq_iff_eq] at hkey
    rw [hkey.1, hkey.2] at he
    exact he.symm
  | none =>
    cases hget : a.get? q c with
    | none => rfl
    | some p =>
      have he := (hedges ⟨q, c, p⟩).mpr (ha.mem_edges.mpr hget)
      have hkey := List.find?_eq_none.mp hfind _ he
      simp at hkey

theorem ofEdges_eq (ha : a.WellFormed) {edges : List (Edge Nat Char)}
    (hedges : ∀ e, e ∈ edges ↔ e ∈ a.edges) :
    ofEdges a.alphabet a.size a.start a.accepting edges = a := by
  have hstored : ∀ e ∈ edges, a.get? e.source e.label = some e.target :=
    fun e he => ha.mem_edges.mp ((hedges e).mp he)
  have hwf : (ofEdges a.alphabet a.size a.start a.accepting edges).WellFormed :=
    wellFormed_ofEdges ha.alphabet_nodup ha.start_lt
      (fun e he => ha.mem_alphabet_of_get? (hstored e he))
      fun e he => ha.target_lt _ _ _ (hstored e he)
  refine ext_get? rfl size_ofEdges rfl ha.accepting_eq.symm (fun q c => ?_) hwf.row_eq ha.row_eq
  by_cases hq : q < a.size
  · rw [get?_ofEdges_of_lt hq, ha.find?_edges hedges]
  · have hle := Nat.le_of_not_lt hq
    rw [get?_of_size_le hle, get?_of_size_le (size_ofEdges.trans_le hle)]

end Automaton.WellFormed

/-! ## Entries -/

namespace Dfa

/-- What is needed for the entry of an automaton to be read back: all counts have numerals, the
transitions account for the states, and the line of the alphabet loses nothing at its end. -/
structure Readable (d : Dfa) : Prop extends d.toAutomaton.WellFormed where
  size_lt : d.size < Text.Numeral.bound
  size_le : d.size ≤ d.edges.length + 2
  last_ne_return : d.alphabet.getLast? ≠ some '\r'

/-- The automaton that is read from the entry of another one. -/
def reread (d : Dfa) : Dfa :=
  d.toAutomaton.toEntry (String.ofList (Text.dropReturn d.token.toList))

variable {d : Dfa}

theorem toAutomaton_reread (d : Dfa) : d.reread.toAutomaton = d.toAutomaton :=
  Automaton.toAutomaton_toEntry _ _

theorem sinks_reread (d : Dfa) : d.reread.sinks = d.deadStates :=
  Automaton.sinks_toEntry _ _

theorem token_reread (d : Dfa) :
    d.reread.token = String.ofList (Text.dropReturn d.token.toList) :=
  Automaton.token_toEntry _ _

/-- The trap of an automaton that was read is one of its sinks, if it has any. -/
theorem stateAt_reread (h : d.deadStates ≠ []) (q : Nat) : d.reread.stateAt q = .numbered q := by
  have hlabel : d.reread.trapLabelled = false := by
    rw [reread, Automaton.toEntry_eq, ofAutomaton]
    simpa using h
  rw [stateAt, hlabel]
  rfl

theorem not_mem_acceptingLine (d : Dfa) {c : Char} (hspace : c ≠ ' ') (hdigit : c.isDigit = false) :
    c ∉ [' '].intercalate (d.accepting.map Text.Numeral.write) := by
  intro h
  rcases mem_of_mem_intercalate h with h | ⟨line, hline, h⟩
  · exact hspace (List.mem_singleton.mp h)
  · obtain ⟨n, _, rfl⟩ := List.mem_map.mp hline
    exact Text.Numeral.not_mem_write hdigit h

theorem newline_not_mem_entryLines (d : Dfa) : ∀ line ∈ d.entryLines, '\n' ∉ line := by
  have hnumeral : ∀ n, '\n' ∉ Text.Numeral.write n :=
    fun n => Text.Numeral.not_mem_write (by decide)
  intro line hline
  simp only [entryLines, blockLines, List.cons_append, List.nil_append, List.mem_cons] at hline
  rcases hline with rfl | rfl | rfl | rfl | rfl | hline
  · exact Text.Escape.newline_not_mem_encode _
  · exact Text.Escape.newline_not_mem_encode _
  · exact hnumeral _
  · exact hnumeral _
  · exact d.not_mem_acceptingLine (by decide) (by decide)
  · obtain ⟨e, _, rfl⟩ := List.mem_map.mp hline
    exact newline_not_mem_edgeLine e

/-- The only lines of an entry that may lose their ends are those of the token name and of the
alphabet. -/
theorem dropReturn_entryLines (d : Dfa) :
    d.entryLines.map Text.dropReturn =
      Text.dropReturn (Text.Escape.encode d.token.toList) ::
        Text.dropReturn (Text.Escape.encode d.alphabet) :: Text.Numeral.write d.size ::
        Text.Numeral.write d.start :: [' '].intercalate (d.accepting.map Text.Numeral.write) ::
        d.edges.map edgeLine := by
  have hnumeral : ∀ n, Text.dropReturn (Text.Numeral.write n) = Text.Numeral.write n :=
    fun n => Text.dropReturn_of_not_mem (Text.Numeral.not_mem_write (by decide))
  have haccepting := d.not_mem_acceptingLine (c := '\r') (by decide) (by decide)
  simp [entryLines, blockLines, hnumeral, Text.dropReturn_of_not_mem haccepting,
    dropReturn_edgeLine]

theorem readEdge_of_mem_edges (hd : d.toAutomaton.WellFormed) (hsize : d.size < Text.Numeral.bound)
    {e : Edge Nat Char} (he : e ∈ d.edges) : readEdge d.size (edgeLine e) = .ok e := by
  have hget := hd.mem_edges.mp he
  exact readEdge_edgeLine hsize (Automaton.WellFormed.lt_of_get? hget) (hd.target_lt _ _ _ hget)

theorem Readable.dropReturn_alphabet (hd : d.Readable) :
    Text.dropReturn (Text.Escape.encode d.alphabet) = Text.Escape.encode d.alphabet := by
  rw [Text.Escape.dropReturn_encode, Text.dropReturn, if_neg hd.last_ne_return]

end Dfa

namespace Cursor

variable {d : Dfa} {rest : List (List Char)}

/-- Written transitions with different sources or labels are all read. -/
theorem nextEdges_edgeLines {alphabet : List Char} {count number : Nat}
    {edges new : List (Edge Nat Char)}
    (hnew : ∀ e ∈ new, readEdge count (Dfa.edgeLine e) = .ok e ∧ e.label ∈ alphabet)
    (hpairwise : new.Pairwise fun e e' => e.source = e'.source → e.label ≠ e'.label)
    (hedges : ∀ e ∈ edges, ∀ e' ∈ new, e.source = e'.source → e.label ≠ e'.label)
    (hrest : ∀ line ∈ rest.head?, line = []) :
    nextEdges alphabet count edges number (new.map Dfa.edgeLine ++ rest) =
      .ok (new.reverse ++ edges, ⟨rest, number + new.length⟩) := by
  have hread : List.Forall₂ (fun line e => readEdge count line = .ok e) (new.map Dfa.edgeLine) new :=
    List.forall₂_map_left_iff.mpr (List.forall₂_same.mpr fun e he => (hnew e he).1)
  have hblock : EdgeBlock alphabet count (new.map Dfa.edgeLine) new :=
    ⟨hread, fun e he => (hnew e he).2, hpairwise⟩
  rw [nextEdges_append hblock hrest hedges, List.length_map]

theorem readEntry_entryLines (hd : d.Readable) (hrest : ∀ line ∈ rest.head?, line = [])
    (number : Nat) :
    readEntry ⟨d.entryLines.map Text.dropReturn ++ rest, number⟩ =
      .ok (d.reread, ⟨rest, number + 5 + d.edges.length⟩) := by
  have hedges : ∀ e ∈ d.edges,
      readEdge d.size (Dfa.edgeLine e) = .ok e ∧ e.label ∈ d.alphabet := by
    intro e he
    have hlabel := hd.mem_alphabet_of_get? (hd.mem_edges.mp he)
    exact ⟨Dfa.readEdge_of_mem_edges hd.toWellFormed hd.size_lt he, hlabel⟩
  have hread : nextEdges d.alphabet d.size [] (number + 5) (d.edges.map Dfa.edgeLine ++ rest) =
      .ok (d.edges.reverse ++ [], ⟨rest, number + 5 + d.edges.length⟩) :=
    nextEdges_edgeLines hedges hd.pairwise_edges (by simp) hrest
  rw [List.append_nil] at hread
  rw [readEntry_eq_ok, d.dropReturn_entryLines, hd.dropReturn_alphabet]
  refine ⟨⟨String.ofList (Text.dropReturn d.token.toList), d.alphabet, d.size, d.start, d.accepting,
    d.edges.reverse⟩, ?_, ?_⟩
  · refine .intro (readToken_encode _) (readAlphabet_encode hd.alphabet_nodup)
      (readNumber_write hd.size_lt) (readOrdinal_write hd.size_lt hd.start_lt)
      (readOrdinals_intercalate hd.size_lt fun q hq => hd.lt_of_mem_accepting hq) hread ?_
    rw [List.length_reverse]
    exact hd.size_le
  · rw [Entry.dfa, hd.ofEdges_eq fun e => List.mem_reverse]
    rfl

/-- An entry has lines that are not blank. -/
theorem onlyBlanks_entryLines (d : Dfa) (rest : List (List Char)) (number : Nat) :
    onlyBlanks ⟨d.entryLines.map Text.dropReturn ++ rest, number⟩ = false := by
  have hcount : Text.Numeral.write d.size ∈ d.entryLines.map Text.dropReturn ++ rest := by
    rw [d.dropReturn_entryLines]
    simp
  obtain ⟨c, hc⟩ := List.exists_mem_of_ne_nil _ (Text.Numeral.write_ne_nil d.size)
  exact onlyBlanks_eq_false.mpr ⟨_, hcount, c, hc, Text.Numeral.isBlank_of_mem_write hc⟩

/-- Between two entries stands an empty line, which is skipped. -/
theorem lines_cons (d : Dfa) (ds : Table) :
    ∃ rest : List (List Char), (Table.lines (d :: ds)).map Text.dropReturn =
        d.entryLines.map Text.dropReturn ++ rest ∧
      (∀ line ∈ rest.head?, line = []) ∧
      ∀ n, ∃ n', skipEmpty ⟨rest, n⟩ = ⟨(Table.lines ds).map Text.dropReturn, n'⟩ := by
  cases ds with
  | nil => exact ⟨[], by simp [Table.lines], by simp, fun n => ⟨n, rfl⟩⟩
  | cons d' ds =>
    refine ⟨[] :: (Table.lines (d' :: ds)).map Text.dropReturn, ?_, by simp,
      fun n => ⟨n + 1, rfl⟩⟩
    rw [Table.lines, List.map_cons, List.map_cons, List.intercalate_cons_cons, List.map_append,
      List.map_append, List.append_assoc]
    rfl

theorem readEntries_lines {table : Table} (h : ∀ d ∈ table, d.Readable) (number : Nat) :
    readEntries ⟨table.lines.map Text.dropReturn, number⟩ = .ok (table.map Dfa.reread) := by
  induction table generalizing number with
  | nil =>
    unfold readEntries
    rfl
  | cons d ds ih =>
    obtain ⟨hd, hds⟩ := List.forall_mem_cons.mp h
    obtain ⟨rest, hlines, hrest, hskip⟩ := lines_cons d ds
    have hentry := readEntry_entryLines hd hrest number
    obtain ⟨number', hskip⟩ := hskip (number + 5 + d.edges.length)
    rw [hlines]
    refine readEntries_eq_ok.mpr (.inr ⟨onlyBlanks_entryLines d rest number, d.reread, _, _, hentry,
      ?_, rfl⟩)
    rw [hskip]
    exact ih hds number'

end Cursor

theorem Table.newline_not_mem_lines (table : Table) : ∀ line ∈ table.lines, '\n' ∉ line := by
  intro line hline
  rcases mem_of_mem_intercalate hline with hline | ⟨entry, hentry, hline⟩
  · obtain rfl := List.mem_singleton.mp hline
    exact List.not_mem_nil
  · obtain ⟨d, _, rfl⟩ := List.mem_map.mp hentry
    exact d.newline_not_mem_entryLines line hline

theorem Table.parse_render_eq (table : Table) :
    Table.parse table.render = Cursor.readEntries ⟨table.lines.map Text.dropReturn, 1⟩ := by
  rw [parse, render, String.toList_ofList, Text.lines_unlines table.newline_not_mem_lines]

/-- A table of automata that can be read back is read back entry by entry. -/
theorem Table.parse_render {table : Table} (h : ∀ d ∈ table, d.Readable) :
    Table.parse table.render = .ok (table.map Dfa.reread) := by
  rw [parse_render_eq]
  exact Cursor.readEntries_lines h 1

/-! ## Compiled automata -/

namespace Dfa

/-- The automaton compiled from the text of an expression, under some token name. -/
def CompiledFromText (d : Dfa) : Prop :=
  ∃ text e token, Expr.parse text = .ok e ∧ d = e.toNfa.toDfa.withToken token

/-- An automaton that was read has the table of the one that was written, and does the same; its
states are all labelled with their numbers. -/
structure ReadBackAs (written back : Dfa) : Prop where
  toAutomaton : back.toAutomaton = written.toAutomaton
  stateAt : ∀ q, back.stateAt q = .numbered q
  render : back.render = written.render
  sinks : back.sinks = written.sinks
  accept : ∀ w, back.accept w = written.accept w
  longest : ∀ w, back.longest w = written.longest w

theorem readable_toDfa {m : Nfa} {token : String} :
    (m.toDfa.withToken token).Readable ↔
      m.toDfa.size < Text.Numeral.bound ∧ m.alphabet.getLast? ≠ some '\r' := by
  constructor
  · intro h
    exact ⟨h.size_lt, h.last_ne_return⟩
  · rintro ⟨hsize, hlast⟩
    exact ⟨m.wellFormed_automaton_toDfa, hsize, m.size_toDfa_le, hlast⟩

theorem CompiledFromText.readable {d : Dfa} (h : d.CompiledFromText)
    (hsize : d.size < Text.Numeral.bound) : d.Readable := by
  obtain ⟨text, e, token, hparse, rfl⟩ := h
  refine readable_toDfa.mpr ⟨hsize, fun hlast => ?_⟩
  have hsymbol : '\r' ∈ e.symbols := Expr.mem_alphabet_toNfa.mp (List.mem_of_getLast? hlast)
  rcases Expr.isBlank_of_mem_symbols hparse hsymbol with h | h
  · exact absurd h (by decide)
  · exact absurd h (by decide)

theorem CompiledFromText.readBackAs_reread {d : Dfa} (h : d.CompiledFromText) :
    d.ReadBackAs d.reread := by
  obtain ⟨text, e, token, hparse, rfl⟩ := h
  have hcompiled := e.toNfa.wellFormed_toDfa
  have hd := hcompiled.withToken token
  have hback : (e.toNfa.toDfa.withToken token).reread.WellFormed := hd.toWellFormed.toEntry _
  have hsame := toAutomaton_reread (e.toNfa.toDfa.withToken token)
  have hsink : e.toNfa.subsets.length ∈ e.toNfa.toDfa.deadStates := by
    refine hcompiled.mem_deadStates.mpr ⟨?_, hcompiled.trap_dead⟩
    rw [Nfa.size_toDfa]
    exact Nat.lt_succ_self _
  refine ⟨hsame, stateAt_reread (List.ne_nil_of_mem hsink), ?_, sinks_reread _,
    hback.accept_congr hd hsame, hback.longest_congr hd hsame⟩
  simp only [render, blockLines, hsame]

end Dfa

/-- A table of automata compiled from texts of expressions is read back, whatever their token names
are. Counts are machine words, so an automaton has less than `2 ^ 64` states. -/
theorem Table.parse_render_compiled {written : Table}
    (hcompiled : ∀ d ∈ written, d.CompiledFromText)
    (hsize : ∀ d ∈ written, d.size < Text.Numeral.bound) :
    ∃ back, Table.parse written.render = .ok back ∧ List.Forall₂ Dfa.ReadBackAs written back := by
  refine ⟨_, parse_render fun d hd => (hcompiled d hd).readable (hsize d hd), ?_⟩
  rw [List.forall₂_map_right_iff, List.forall₂_same]
  exact fun d hd => (hcompiled d hd).readBackAs_reread

/-- Two automata over a newline and a comma, with a blank token name and one that ends in a carriage
return. -/
theorem Table.parse_render_compiled_newline_comma :
    ∃ written back : Table, written.map (·.token) = [" ", "t\r"] ∧
      Table.parse written.render = .ok back ∧ List.Forall₂ Dfa.ReadBackAs written back := by
  have hstar : Expr.parse "STAR \\n" = .ok (.star (.symbol '\n')) := by decide
  have hplus : Expr.parse "PLUS ," = .ok (.plus (.symbol ',')) := by decide
  have hlengthStar : (Expr.star (.symbol '\n')).toNfa.subsets.length = 2 := by cbv
  have hlengthPlus : (Expr.plus (.symbol ',')).toNfa.subsets.length = 2 := by cbv
  have hsizeStar := Nfa.size_toDfa (Expr.star (.symbol '\n')).toNfa
  have hsizePlus := Nfa.size_toDfa (Expr.plus (.symbol ',')).toNfa
  rw [hlengthStar] at hsizeStar
  rw [hlengthPlus] at hsizePlus
  have hcompiled : ∀ d ∈ [(Expr.star (.symbol '\n')).toNfa.toDfa.withToken " ",
      (Expr.plus (.symbol ',')).toNfa.toDfa.withToken "t\r"], d.CompiledFromText := by
    rw [List.forall_mem_cons, List.forall_mem_singleton]
    exact ⟨⟨_, _, _, hstar, rfl⟩, _, _, _, hplus, rfl⟩
  obtain ⟨back, hparse, hback⟩ := Table.parse_render_compiled hcompiled (by
    rw [List.forall_mem_cons, List.forall_mem_singleton]
    refine ⟨?_, ?_⟩
    · exact Nat.lt_of_le_of_lt hsizeStar.le (by decide)
    · exact Nat.lt_of_le_of_lt hsizePlus.le (by decide))
  exact ⟨_, back, rfl, hparse, hback⟩

end LexGen
