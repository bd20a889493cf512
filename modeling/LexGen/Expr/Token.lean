-- SUMMARY: The tokens of prefix notation, and the prefix form of an expression.
import LexGen.Expr.Basic

/-! # Prefix notation

In prefix notation an operator stands in front of its operands, so no parentheses are needed. Its
tokens are the keywords of the operators, `NULL` for the expression without words, `\n` for the
newline symbol, and any other symbol by itself. The empty word has no token of its own: it is
written `STAR NULL`. -/

namespace LexGen

/-- The operators with one operand. -/
inductive Unary where
  | star
  | plus
  deriving DecidableEq

/-- The operators with two operands. -/
inductive Binary where
  | concat
  | union
  deriving DecidableEq

namespace Unary

/-- The keyword of the operator. -/
def keyword : Unary → String
  | .star => "STAR"
  | .plus => "PLUS"

/-- The expression of the operator and its operand. -/
def apply : Unary → Expr → Expr
  | .star => .star
  | .plus => .plus

end Unary

namespace Binary

/-- The keyword of the operator. -/
def keyword : Binary → String
  | .concat => "CONCAT"
  | .union => "UNION"

/-- The expression of the operator and its operands. -/
def apply : Binary → Expr → Expr → Expr
  | .concat => .concat
  | .union => .union

end Binary

/-- A token of prefix notation. -/
inductive Token where
  | unary (op : Unary)
  | binary (op : Binary)
  | null
  | symbol (c : Char)
  deriving DecidableEq

namespace Token

/-- The text of a token. -/
def text : Token → List Char
  | .unary op => op.keyword.toList
  | .binary op => op.keyword.toList
  | .null => "NULL".toList
  | .symbol c => if c = '\n' then ['\\', 'n'] else [c]

/-- The token that a word stands for: one of the fixed texts, or a single character. -/
def read? (word : List Char) : Option Token :=
  if word = (unary .star).text then some (.unary .star)
  else if word = (unary .plus).text then some (.unary .plus)
  else if word = (binary .concat).text then some (.binary .concat)
  else if word = (binary .union).text then some (.binary .union)
  else if word = null.text then some .null
  else if word = (symbol '\n').text then some (.symbol '\n')
  else
    match word with
    | [c] => some (.symbol c)
    | _ => none

end Token

namespace Expr

/-- The tokens that a node itself contributes to the prefix form. -/
def ownTokens : Expr → List Token
  | .symbol c => [.symbol c]
  | .epsilon => [.unary .star, .null]
  | .empty => [.null]
  | .concat .. => [.binary .concat]
  | .union .. => [.binary .union]
  | .star _ => [.unary .star]
  | .plus _ => [.unary .plus]

/-- The tokens of an expression in prefix notation. -/
def tokens (e : Expr) : List Token :=
  e.preorder.flatMap ownTokens

/-- An expression in prefix notation, with single spaces between the tokens. -/
def prefixForm (e : Expr) : String :=
  String.ofList ([' '].intercalate (e.tokens.map Token.text))

end Expr

end LexGen
