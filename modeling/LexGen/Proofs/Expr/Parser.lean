-- SUMMARY: The symbols of an expression that was read: newlines, or characters of its text that are not blank.
import Mathlib.Tactic.Common
import LexGen.Expr.Parser
import LexGen.Proofs.Expr.Language
import LexGen.Proofs.Text

/-! # Symbols of expressions that were read

No symbol is made up by the reader: those of the expressions it holds, complete or waiting, are the
symbols of the tokens read. -/

namespace LexGen

/-! ## Symbols held by the reader -/

/-- The symbols of the operand that a waiting operator has. -/
def Frame.symbols : Frame → List Char
  | .unary _ | .first _ => []
  | .second _ l => l.symbols

namespace Progress

/-- The symbols of the expressions held. -/
def symbols : Progress → List Char
  | .complete e => e.symbols
  | .waiting stack => stack.flatMap Frame.symbols

theorem mem_symbols_supply {e : Expr} {stack : List Frame} {c : Char} :
    c ∈ (supply e stack).symbols ↔ c ∈ e.symbols ∨ c ∈ stack.flatMap Frame.symbols := by
  induction stack generalizing e with
  | nil => simp [supply, symbols]
  | cons frame stack ih =>
    cases frame with
    | unary op => cases op <;> simp [supply, ih, Unary.apply, Expr.symbols, Frame.symbols]
    | first op => simp [supply, symbols, Frame.symbols]
    | second op l =>
      have happly : c ∈ (op.apply l e).symbols ↔ c ∈ l.symbols ∨ c ∈ e.symbols := by
        cases op <;> simp [Binary.apply, Expr.symbols]
      simp only [supply, ih, happly, List.flatMap_cons, List.mem_append, Frame.symbols]
      exact or_assoc.trans or_left_comm

theorem mem_symbols_read {stack : List Frame} {token : Token} {c : Char} :
    c ∈ (read stack token).symbols ↔ token = .symbol c ∨ c ∈ stack.flatMap Frame.symbols := by
  cases token with
  | unary op => simp [read, symbols, Frame.symbols]
  | binary op => simp [read, symbols, Frame.symbols]
  | null => simp [read, mem_symbols_supply, Expr.symbols]
  | symbol b => simp [read, mem_symbols_supply, Expr.symbols, eq_comm]

end Progress

/-! ## Words -/

theorem Token.eq_of_read?_symbol {word : List Char} {c : Char} (h : read? word = some (.symbol c)) :
    c = '\n' ∨ word = [c] := by
  unfold read? at h
  split_ifs at h
  · cases h
  · cases h
  · cases h
  · cases h
  · cases h
  · cases h
    exact .inl rfl
  · split at h
    · cases h
      exact .inr rfl
    · cases h

namespace Expr

/-- Reading succeeds if the first word is a token and the other words are read behind it, or if the
token finishes the expression and no words are left. -/
theorem parseWords_cons_eq_ok {stack : List Frame} {consumed : Nat} {word : List Char}
    {rest : List (List Char)} {e : Expr} : parseWords stack consumed (word :: rest) = .ok e ↔
      ∃ token, Token.read? word = some token ∧
        ((∃ stack', Progress.read stack token = .waiting stack' ∧
            parseWords stack' (consumed + 1) rest = .ok e) ∨
          Progress.read stack token = .complete e ∧ rest = []) := by
  rw [parseWords]
  cases Token.read? word with
  | none => simp
  | some token =>
    simp only [Option.some.injEq, exists_eq_left']
    cases Progress.read stack token with
    | waiting stack' => simp
    | complete e' => cases rest <;> simp

theorem mem_symbols_of_parseWords {stack : List Frame} {consumed : Nat} {ws : List (List Char)}
    {e : Expr} {c : Char} (h : parseWords stack consumed ws = .ok e) (hc : c ∈ e.symbols) :
    c ∈ stack.flatMap Frame.symbols ∨ ∃ word ∈ ws, Token.read? word = some (.symbol c) := by
  induction ws generalizing stack consumed with
  | nil => cases h
  | cons word rest ih =>
    obtain ⟨token, htoken, h⟩ := parseWords_cons_eq_ok.mp h
    have hread : c ∈ (Progress.read stack token).symbols →
        c ∈ stack.flatMap Frame.symbols ∨
          ∃ word' ∈ word :: rest, Token.read? word' = some (.symbol c) := by
      intro hmem
      rcases Progress.mem_symbols_read.mp hmem with rfl | hstack
      · exact .inr ⟨word, List.mem_cons_self, htoken⟩
      · exact .inl hstack
    rcases h with ⟨stack', hprogress, h⟩ | ⟨hprogress, -⟩
    · rcases ih h with hstack | ⟨word', hword, htoken'⟩
      · rw [hprogress] at hread
        exact hread hstack
      · exact .inr ⟨word', List.mem_cons_of_mem _ hword, htoken'⟩
    · rw [hprogress] at hread
      exact hread hc

theorem isBlank_of_mem_symbols {text : String} {e : Expr} {c : Char} (h : parse text = .ok e)
    (hc : c ∈ e.symbols) : c = '\n' ∨ Text.isBlank c = false := by
  rcases mem_symbols_of_parseWords h hc with hstack | ⟨word, hword, htoken⟩
  · cases hstack
  · rcases Token.eq_of_read?_symbol htoken with hnewline | rfl
    · exact .inl hnewline
    · exact .inr (Text.isBlank_of_mem_words hword (List.mem_singleton.mpr rfl))

end Expr

end LexGen
