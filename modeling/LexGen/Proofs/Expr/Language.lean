-- SUMMARY: The regular language that an expression denotes, and the symbols that it is built from.
import Mathlib.Computability.Language
import LexGen.Expr.Basic

/-! # Languages and symbols of expressions -/

namespace LexGen.Expr

open Computability

/-- The words of an expression. -/
def language : Expr → Language Char
  | .symbol c => {[c]}
  | .epsilon => 1
  | .empty => 0
  | .concat l r => l.language * r.language
  | .union l r => l.language + r.language
  | .star e => e.language∗
  | .plus e => e.language * e.language∗

/-- The characters of the symbols, from left to right. -/
def symbols : Expr → List Char
  | .symbol c => [c]
  | .epsilon | .empty => []
  | .concat l r | .union l r => l.symbols ++ r.symbols
  | .star e | .plus e => e.symbols

end LexGen.Expr
