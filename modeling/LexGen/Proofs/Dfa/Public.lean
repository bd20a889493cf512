-- SUMMARY: The automata that a program can come by, and what the longest beginning of a text is for each of them.
import Mathlib
import LexGen.Proofs.Dfa.Longest
import LexGen.Proofs.Nfa.Subsets
import LexGen.Proofs.Table.Reader

/-! # Automata that can occur

An automaton is compiled from an expression or read from a table. Both kinds are well-formed, and
so they stay under another token name or with their sinks determined anew. -/

namespace LexGen.Dfa

/-- The automata that a program can come by. -/
inductive Public : Dfa → Prop where
  | compiled (e : Expr) : Public e.toNfa.toDfa
  | read {text : String} {table : Table} {d : Dfa} (h : Table.parse text = .ok table)
      (hd : d ∈ table) : Public d
  | renamed {d : Dfa} (hd : Public d) (token : String) : Public (d.withToken token)
  | reclassified {d : Dfa} (hd : Public d) : Public d.withSinks

variable {d : Dfa}

theorem Public.wellFormed (hd : d.Public) : d.WellFormed := by
  induction hd with
  | compiled e => exact e.toNfa.wellFormed_toDfa
  | read h hd => exact Table.wellFormed_of_parse h _ hd
  | renamed _ token ih => exact ih.withToken token
  | reclassified _ ih => exact ih.withSinks

/-- The beginning found is the longest accepted one, or empty if there is no nonempty one; the
position of the last character read is that of the longest beginning of any accepted word. -/
theorem Public.longestPrefix_longest (hd : d.Public) (w : List Char) :
    (LongestPrefix (d.accept · = true) w (d.longest w).text ∨
      (d.longest w).text = [] ∧ ∀ u, u <+: w → u ≠ [] → d.accept u = false) ∧
    (∀ i, (d.longest w).last? = some i ↔
      ∃ u, LongestPrefix d.Extendable w u ∧ u.length = i + 1) ∧
    ((d.longest w).last? = none ↔ ∀ u, u <+: w → u ≠ [] → ¬ d.Extendable u) := by
  obtain ⟨n, htext, hbest, hread⟩ := longest_lengths hd.wellFormed w
  refine ⟨?_, fun i => ?_, ?_⟩
  · rw [htext]
    by_cases hn : n = 0
    · refine .inr ⟨by rw [hn, List.take_zero], fun u hu hne => ?_⟩
      exact Bool.eq_false_iff.mpr (hbest.eq_zero_iff.mp hn u hu hne)
    · have hne : w.take n ≠ [] := by
        rw [Ne, List.take_eq_nil_iff, not_or]
        refine ⟨hn, fun hw => ?_⟩
        have hle := hbest.le
        rw [hw, List.length_nil] at hle
        exact hn (Nat.le_zero.mp hle)
      exact .inl ((hbest.longestPrefix_iff hne).mpr ⟨hn, rfl⟩)
  · rw [Longest.last?_eq_some, hread.exists_longestPrefix_iff]
  · rw [Longest.last?_eq_none, hread.eq_zero_iff]

/-- The walk over `abcbx` reads `abcb`, the beginning of `abcbc`, and goes back to `abc`. -/
theorem Public.longestPrefix_longest_abcbx :
    ∃ d : Dfa, d.Public ∧ LongestPrefix (d.accept · = true) "abcbx".toList "abc".toList ∧
      ∃ u, LongestPrefix d.Extendable "abcbx".toList u ∧ u.length = 4 := by
  have hd := Public.compiled (.concat (.symbol 'a') (.star (.concat (.symbol 'b') (.symbol 'c'))))
  obtain ⟨htext, hlast, _⟩ := hd.longestPrefix_longest "abcbx".toList
  have hlongest :
      (Expr.concat (.symbol 'a') (.star (.concat (.symbol 'b') (.symbol 'c')))).toNfa.toDfa.longest
        "abcbx".toList = ⟨"abc".toList, 4⟩ := by cbv
  rw [hlongest] at htext hlast
  refine ⟨_, hd, htext.resolve_right fun h => ?_, (hlast 3).mp rfl⟩
  exact absurd h.1 (by decide)

end LexGen.Dfa
