-- SUMMARY: Writing a table that was read gives a text that is read as the same table.
import Mathlib
import LexGen.Proofs.Table.Grammar
import LexGen.Proofs.Table.RoundTrip

/-! # The written form as a normal form

A table may be spelled in many ways: with signs, leading zeros and blanks, with its transitions in
any order, with symbols repeated in an alphabet. All of this is gone when the table is written, and
what is written is read as the same automata, unless a carriage return stands where a line ends. -/

namespace LexGen

/-! ## Characters of a line -/

theorem Text.Escape.Spells.mem_of_mem {c : Char} {text symbols : List Char}
    (h : Spells text symbols) (hc : c ∈ symbols) (hnewline : c ≠ '\n') : c ∈ text := by
  induction h with
  | nil => cases hc
  | newline _ ih =>
    have hc := (List.mem_cons.mp hc).resolve_left hnewline
    exact List.mem_cons_of_mem _ (List.mem_cons_of_mem _ (ih hc))
  | backslash _ ih =>
    rcases List.mem_cons.mp hc with rfl | hc
    · exact List.mem_cons_self
    · exact List.mem_cons_of_mem _ (List.mem_cons_of_mem _ (ih hc))
  | plain _ _ ih =>
    rcases List.mem_cons.mp hc with rfl | hc
    · exact List.mem_cons_self
    · exact List.mem_cons_of_mem _ (ih hc)

/-! ## Entries -/

namespace Entry

variable {x : Entry} {d : Dfa} {lines : List (List Char)}

theorem Describes.eq_dfa (hx : x.SpelledBy lines) (hd : x.Describes d) : d = x.dfa :=
  hd.unique hx.consistent.describes_dfa

/-- The transitions in the table are those listed, each of them once. -/
theorem Describes.length_edges (hx : x.Consistent) (hd : x.Describes d)
    (hwell : d.toAutomaton.WellFormed) : d.edges.length = x.edges.length := by
  have hnodup : ∀ {edges : List (Edge Nat Char)},
      (edges.Pairwise fun e e' => e.source = e'.source → e.label ≠ e'.label) → edges.Nodup :=
    fun h => h.imp fun hne heq => hne (congrArg _ heq) (congrArg _ heq)
  refine List.Perm.length_eq ((List.perm_ext_iff_of_nodup (hnodup hwell.pairwise_edges)
    (hnodup hx.pairwise)).mpr fun e => ?_)
  rw [hwell.mem_edges, hd.get?_eq_some]

theorem Describes.readable (hx : x.SpelledBy lines) (hd : x.Describes d)
    (hreturn : ∀ line ∈ lines, '\r' ∉ line) : d.Readable := by
  have hconsistent := hx.consistent
  have hwell : d.toAutomaton.WellFormed := by
    rw [hd.eq_dfa hx, dfa, Automaton.toAutomaton_toEntry]
    exact hconsistent.wellFormed
  have hedges := hd.length_edges hconsistent hwell
  obtain ⟨_, halphabet, hsymbols, hcount, _, _, _, _, _, _, hmax⟩ := hx
  refine ⟨hwell, ?_, ?_, fun hlast => ?_⟩
  · rw [hd.size]
    exact hcount.lt_bound
  · rw [hd.size, hedges]
    exact hmax
  · have hmem : '\r' ∈ x.alphabet := hd.alphabet ▸ List.mem_of_getLast? hlast
    rw [← hsymbols, List.mem_eraseDups] at hmem
    exact hreturn _ (by simp) (halphabet.mem_of_mem hmem (by decide))

/-- Reading an entry back makes the same trap of its table as reading it did. -/
theorem Describes.reread_eq_self (hx : x.SpelledBy lines) (hd : x.Describes d)
    (hreturn : ∀ line ∈ lines, '\r' ∉ line) : d.reread = d := by
  have htoken : Text.dropReturn d.token.toList = d.token.toList := by
    obtain ⟨htoken, _⟩ := hx
    refine Text.dropReturn_of_not_mem fun hmem => ?_
    rw [hd.token] at hmem
    exact hreturn _ List.mem_cons_self (htoken.mem_of_mem hmem (by decide))
  rw [Dfa.reread, htoken, String.ofList_toList, hd.eq_dfa hx, dfa, Automaton.toAutomaton_toEntry,
    Automaton.token_toEntry]

end Entry

/-! ## Tables -/

namespace Table

theorem Spells.exists_of_mem {lines : List (List Char)} {xs : List Entry} {table : Table}
    (h : Spells lines xs) (htable : List.Forall₂ Entry.Describes xs table) :
    ∀ d ∈ table, ∃ (x : Entry) (ls : List (List Char)),
      x.SpelledBy ls ∧ ls ⊆ lines ∧ x.Describes d := by
  induction h generalizing table with
  | blank _ =>
    cases htable
    simp
  | @last lines x hx =>
    obtain ⟨d, _, hd, hnil, rfl⟩ := List.forall₂_cons_left_iff.mp htable
    obtain rfl := List.forall₂_nil_left_iff.mp hnil
    exact List.forall_mem_singleton.mpr ⟨x, lines, hx, fun _ h => h, hd⟩
  | @more lines rest x xs hx _ ih =>
    obtain ⟨d, ds, hd, hds, rfl⟩ := List.forall₂_cons_left_iff.mp htable
    refine List.forall_mem_cons.mpr ⟨⟨x, lines, hx, List.subset_append_left _ _, hd⟩, ?_⟩
    intro d' hd'
    obtain ⟨x', ls, hx', hls, hdescribes⟩ := ih hds d' hd'
    refine ⟨x', ls, hx', fun l hl => ?_, hdescribes⟩
    exact List.mem_append_right _ (List.mem_cons_of_mem _ (hls hl))

/-- A table read from a text without carriage returns is written in its normal form: what is written
is read as the same table, and so written the same way again. -/
theorem parse_render_of_parse {text : String} {table : Table} (hreturn : '\r' ∉ text.toList)
    (h : parse text = .ok table) :
    parse table.render = .ok table ∧
      ∀ written, (parse text).map render = .ok written → (parse written).map render = .ok written := by
  obtain ⟨xs, hspells, htable⟩ := Cursor.spells_of_readEntries h
  have hself : ∀ d ∈ table, d.Readable ∧ d.reread = d := by
    intro d hd
    obtain ⟨x, ls, hx, hls, hdescribes⟩ := hspells.exists_of_mem htable d hd
    have hclean : ∀ line ∈ ls, '\r' ∉ line :=
      fun line hline hmem => hreturn (Text.mem_of_mem_lines (hls hline) hmem)
    exact ⟨hdescribes.readable hx hclean, hdescribes.reread_eq_self hx hclean⟩
  have hback : parse table.render = .ok table := by
    rw [parse_render fun d hd => (hself d hd).1, List.map_congr_left fun d hd => (hself d hd).2,
      List.map_id']
  refine ⟨hback, fun written hwritten => ?_⟩
  rw [h] at hwritten
  cases hwritten
  rw [hback]
  rfl

/-- A sign, zeros, blanks, a repeated symbol, transitions out of order and a state that none of them
enters. -/
theorem parse_render_of_parse_loose :
    ∃ table, parse "T\naba\n +04 \n00\n1  01\n1,'b',2\n0,'a',+1\n" = .ok table ∧
      table.render = "T\nab\n4\n0\n1\n0,'a',1\n1,'b',2\n" ∧ parse table.render = .ok table := by
  have hwritten : (parse "T\naba\n +04 \n00\n1  01\n1,'b',2\n0,'a',+1\n").map render =
      .ok "T\nab\n4\n0\n1\n0,'a',1\n1,'b',2\n" := by cbv
  cases hparse : parse "T\naba\n +04 \n00\n1  01\n1,'b',2\n0,'a',+1\n" with
  | error e =>
    rw [hparse] at hwritten
    cases hwritten
  | ok table =>
    rw [hparse] at hwritten
    exact ⟨table, rfl, Except.ok.inj hwritten, (parse_render_of_parse (by decide) hparse).1⟩

end Table

end LexGen
