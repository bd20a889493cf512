-- SUMMARY: Two more written forms of an expression: nested names, and infix notation.
import LexGen.Expr.Basic
import LexGen.Text.Quoted

/-! # Written forms

`display` writes each node as its name, with its operands between parentheses. `infixForm` writes
operators the usual way; there a symbol that is not printable ASCII is written by its code point,
and quotes and backslashes get a backslash. -/

namespace LexGen.Expr

/-! ## Nested names -/

/-- An expression as nested names, such as `Concat(a, Star(b))`. -/
def display : Expr → String
  | .star e => "Star(" ++ e.display ++ ")"
  | .plus e => "Plus(" ++ e.display ++ ")"
  | .concat l r => "Concat(" ++ l.display ++ ", " ++ r.display ++ ")"
  | .union l r => "Union(" ++ l.display ++ ", " ++ r.display ++ ")"
  | e => e.name

/-! ## Infix notation -/

/-- The form of a symbol in infix notation. -/
def infixSymbol (c : Char) : List Char :=
  if c = '\t' then ['\\', 't']
  else if c = '\r' then ['\\', 'r']
  else if c = '\n' then ['\\', 'n']
  else if c = '\\' || c = '\'' || c = '"' then ['\\', c]
  else if 0x20 ≤ c.toNat && c.toNat ≤ 0x7E then [c]
  else Text.Quoted.codePoint c

/-- The characters of an expression in infix notation, such as `(a(b U c)*)`. -/
def infixChars : Expr → List Char
  | .symbol c => infixSymbol c
  | .epsilon => ['ε']
  | .empty => ['∅']
  | .concat l r => ['('] ++ l.infixChars ++ r.infixChars ++ [')']
  | .union l r => ['('] ++ l.infixChars ++ [' ', 'U', ' '] ++ r.infixChars ++ [')']
  | .star e => e.infixChars ++ ['*']
  | .plus e => e.infixChars ++ ['+']

/-- An expression in infix notation. -/
def infixForm (e : Expr) : String :=
  String.ofList e.infixChars

end LexGen.Expr
