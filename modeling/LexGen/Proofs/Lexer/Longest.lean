-- SUMMARY: The next lexeme is the longest beginning of the rest that an automaton accepts, under the first one that accepts it.
import Mathlib
import LexGen.Proofs.Dfa.Public
import LexGen.Proofs.Lexer.Run

/-! # The next lexeme

The longest beginning that some automaton of a table accepts is the longest of the beginnings that
the automata find. Of several automata that find it the one listed first is chosen; no automaton in
front of that one accepts it at all. -/

namespace LexGen

/-! ## Longest beginnings of several automata -/

/-- Some automaton of the table accepts the text. -/
def Table.Accepts (ds : Table) (u : List Char) : Prop :=
  ∃ d ∈ ds, d.accept u = true

theorem LongestLength.or {P Q : List Char → Prop} {text : List Char} {m n : Nat}
    (hP : LongestLength P text m) (hQ : LongestLength Q text n) :
    LongestLength (fun u => P u ∨ Q u) text (max m n) := by
  refine ⟨max_le hP.le hQ.le, fun hpos => ?_, fun u hu h => ?_⟩
  · rcases max_choice m n with hmax | hmax
    · rw [hmax] at hpos ⊢
      exact .inl (hP.holds hpos)
    · rw [hmax] at hpos ⊢
      exact .inr (hQ.holds hpos)
  · rcases h with h | h
    · exact le_max_of_le_left (hP.longest u hu h)
    · exact le_max_of_le_right (hQ.longest u hu h)

namespace Lexer

/-- The choice among the automata of a table, in terms of the length of the longest beginning that
one of them accepts. -/
theorem longest?_cases {ds : Table} (hds : ∀ d ∈ ds, d.WellFormed) (text : List Char) :
    ∃ n, LongestLength (Table.Accepts ds) text n ∧
      (n = 0 ∧ longest? text ds = none ∨
        n ≠ 0 ∧ ∃ d, ds.find? (·.accept (text.take n)) = some d ∧
          longest? text ds = some (d, text.take n)) := by
  induction ds with
  | nil => exact ⟨0, ⟨Nat.zero_le _, fun h => absurd rfl h, by simp [Table.Accepts]⟩, .inl ⟨rfl, rfl⟩⟩
  | cons d ds ih =>
    obtain ⟨hd, hds⟩ := List.forall_mem_cons.mp hds
    obtain ⟨m, hown, hm, _⟩ := Dfa.longest_lengths hd text
    obtain ⟨n, hn, hcases⟩ := ih hds
    have haccepts : Table.Accepts (d :: ds) = fun u => d.accept u = true ∨ Table.Accepts ds u := by
      funext u
      simp [Table.Accepts]
    have hor := hm.or hn
    rw [← haccepts] at hor
    refine ⟨max m n, hor, ?_⟩
    rw [longest?, hown]
    rcases hcases with ⟨rfl, hnone⟩ | ⟨hn0, d', hfind, hsome⟩
    · rw [hnone, Nat.max_zero]
      by_cases hm0 : m = 0
      · refine .inl ⟨hm0, ?_⟩
        rw [hm0]
        rfl
      · refine .inr ⟨hm0, d, List.find?_cons_of_pos (hm.holds hm0), ?_⟩
        have hempty : (text.take m).isEmpty = false := by
          rw [List.isEmpty_eq_false_iff, ← List.length_pos_iff, hm.length_take]
          omega
        rw [hempty]
        rfl
    · rw [hsome]
      dsimp only
      rw [hm.length_take, hn.length_take]
      by_cases hle : n ≤ m
      · rw [if_pos hle, max_eq_left hle]
        have hm0 : m ≠ 0 := by omega
        exact .inr ⟨hm0, d, List.find?_cons_of_pos (hm.holds hm0), rfl⟩
      · rw [if_neg hle, max_eq_right (by omega)]
        have hreject : d.accept (text.take n) = false := by
          rw [Bool.eq_false_iff]
          exact fun haccept => hle (hm.le_of_take hn.le haccept)
        exact .inr ⟨hn0, d', by simpa [hreject] using hfind, rfl⟩

/-! ## Lexers that can occur -/

/-- The lexers over a table and an input that calls of `next` lead to. -/
inductive Reachable (dfas : Table) (input : List Char) : Lexer → Prop where
  | new : Reachable dfas input (.new dfas input)
  | next {l : Lexer} (h : Reachable dfas input l) : Reachable dfas input l.next.2

/-- The lexer has the automata of the table, and stands in the input behind the part `done`. -/
structure Behind (dfas : Table) (input done : List Char) (l : Lexer) : Prop where
  dfas_eq : l.dfas = dfas
  input_eq : input = done ++ l.rest
  position_eq : l.position = byteLength done

variable {dfas : Table} {input : List Char} {l : Lexer}

theorem Behind.next {done : List Char} (h : Behind dfas input done l) :
    ∃ done', Behind dfas input done' l.next.2 := by
  have hstep := l.step_next
  generalize l.next.1 = answer, l.next.2 = l' at hstep
  cases hstep with
  | ended _ => exact ⟨done, h⟩
  | stuck _ _ _ => exact ⟨done, h.dfas_eq, h.input_eq, h.position_eq⟩
  | @lexeme l' x _ htakes =>
    refine ⟨done ++ x.text, htakes.dfas_eq.trans h.dfas_eq, ?_, ?_⟩
    · rw [h.input_eq, htakes.rest_eq, List.append_assoc]
    · rw [htakes.position_eq, h.position_eq, byteLength_append]

theorem Reachable.exists_behind (h : Reachable dfas input l) :
    ∃ done, Behind dfas input done l := by
  induction h with
  | new => exact ⟨[], rfl, rfl, rfl⟩
  | next _ ih =>
    obtain ⟨done, hdone⟩ := ih
    exact hdone.next

/-! ## The answer -/

/-- The next lexeme is the longest nonempty beginning of the rest that an automaton accepts, under the
token name of the first automaton that accepts it. If there is none, lexing fails at the current
position. -/
theorem Reachable.next_longest (hl : Reachable dfas input l) (hdfas : ∀ d ∈ dfas, d.Public)
    (hfailed : l.failed = false) (hrest : l.rest ≠ []) :
    ∃ done, input = done ++ l.rest ∧
      ((∃ x d, l.next.1 = some (.ok x) ∧ x.text ≠ [] ∧
          LongestPrefix (Table.Accepts dfas) l.rest x.text ∧
          dfas.find? (·.accept x.text) = some d ∧ x.token = d.token) ∨
        ((∀ u, u <+: l.rest → u ≠ [] → ¬ Table.Accepts dfas u) ∧
          l.next.1 = some (.error ⟨byteLength done⟩) ∧ l.next.2.rest = l.rest)) := by
  obtain ⟨done, hdone⟩ := hl.exists_behind
  refine ⟨done, hdone.input_eq, ?_⟩
  obtain ⟨n, hn, hcases⟩ := longest?_cases (fun d hd => (hdfas d hd).wellFormed) l.rest
  have hstep := l.step_next
  generalize l.next.1 = answer, l.next.2 = l' at hstep ⊢
  cases hstep with
  | ended hend => simp [hfailed, hrest] at hend
  | stuck _ _ hlongest =>
    rw [hdone.dfas_eq] at hlongest
    rcases hcases with ⟨hn0, _⟩ | ⟨_, d, _, hsome⟩
    · exact .inr ⟨hn.eq_zero_iff.mp hn0, by rw [hdone.position_eq], rfl⟩
    · rw [hsome] at hlongest
      cases hlongest
  | @lexeme _ x _ htakes =>
    obtain ⟨d', hlongest, htoken⟩ := htakes.longest
    rw [hdone.dfas_eq] at hlongest
    rcases hcases with ⟨_, hnone⟩ | ⟨hn0, d, hfind, hsome⟩
    · rw [hnone] at hlongest
      cases hlongest
    · rw [hsome, Option.some.injEq, Prod.mk.injEq] at hlongest
      obtain ⟨rfl, htext⟩ := hlongest
      rw [htext] at hfind
      exact .inl ⟨x, d, rfl, htakes.text_ne_nil,
        (hn.longestPrefix_iff htakes.text_ne_nil).mpr ⟨hn0, htext⟩, hfind, htoken⟩

/-- Behind the `é` of `éif` a keyword and an identifier both fit, and the keyword is listed first. -/
theorem Reachable.next_longest_keyword :
    ∃ (dfas : Table) (l : Lexer), dfas.map (·.token) = ["KW", "ID", ""] ∧
      Reachable dfas "éif".toList l ∧ (∀ d ∈ dfas, d.Public) ∧ l.failed = false ∧
      l.rest = "if".toList ∧ ∃ x d, l.next.1 = some (.ok x) ∧ x.token = "KW" ∧
        LongestPrefix (Table.Accepts dfas) l.rest x.text ∧
        dfas.find? (·.accept x.text) = some d ∧ x.token = d.token := by
  obtain ⟨dfas, htokens, hdfas, hfailed, hrest, hnext⟩ : ∃ dfas : Table,
      dfas.map (·.token) = ["KW", "ID", ""] ∧ (∀ d ∈ dfas, d.Public) ∧
        (Lexer.new dfas "éif".toList).next.2.failed = false ∧
        (Lexer.new dfas "éif".toList).next.2.rest = "if".toList ∧
        (Lexer.new dfas "éif".toList).next.2.next.1 =
          some (.ok ⟨"KW", "if".toList, 2, 4⟩) := by
    refine ⟨[(Expr.concat (.symbol 'i') (.symbol 'f')).toNfa.toDfa.withToken "KW",
      (Expr.plus (.union (.symbol 'i') (.symbol 'f'))).toNfa.toDfa.withToken "ID",
      (Expr.star (.symbol 'é')).toNfa.toDfa], rfl, ?_, by cbv, by cbv, by cbv⟩
    rw [List.forall_mem_cons, List.forall_mem_cons, List.forall_mem_singleton]
    exact ⟨.renamed (.compiled _) _, .renamed (.compiled _) _, .compiled _⟩
  have hreachable := (Reachable.new : Reachable dfas "éif".toList _).next
  have hne : (Lexer.new dfas "éif".toList).next.2.rest ≠ [] := by rw [hrest]; decide
  obtain ⟨done, _, ⟨x, d, hx, _, hlongest, hfind, htoken⟩ | ⟨_, herror, _⟩⟩ :=
    hreachable.next_longest hdfas hfailed hne
  · refine ⟨dfas, _, htokens, hreachable, hdfas, hfailed, hrest, x, d, hx, ?_, hlongest, hfind,
      htoken⟩
    rw [hnext] at hx
    cases hx
    rfl
  · rw [hnext] at herror
    cases herror

end Lexer

end LexGen
