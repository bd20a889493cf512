-- SUMMARY: Reading an expression from prefix notation, and what can be wrong with such a text.
import LexGen.Expr.Token
import LexGen.Text.Blank
import LexGen.Text.Quoted

/-! # Reading prefix notation

The reader goes through the words of a text once, left to right. It keeps the operators that still
wait for operands, the innermost first; a finished expression goes to the innermost of them, which
may finish a larger one, and so on. Reading ends with the first word that finishes the outermost
operator, and nothing may follow it. -/

namespace LexGen

/-! ## Errors -/

/-- Why a text is not the prefix form of an expression. -/
inductive ParseError where
  /-- The text has no words. -/
  | noInput
  /-- The text ends, after `consumed` words, before operand `index` of an operator. -/
  | missingOperand (keyword : String) (index consumed : Nat)
  /-- A word is no token. -/
  | badSymbol (word : String)
  /-- These words follow a finished expression. -/
  | trailing (rest : List String)
  deriving DecidableEq

/-- The wording of the error. -/
def ParseError.message : ParseError → String
  | .noInput => "Expected an expression, found no tokens"
  | .missingOperand keyword index consumed =>
    s!"Missing operand {index} of {keyword} (after {consumed} tokens)"
  | .badSymbol word =>
    "Invalid symbol " ++ Text.Quoted.text word ++ ", symbols must be a single character or \\n"
  | .trailing rest =>
    "Trailing tokens after a complete expression: " ++ Text.Quoted.texts rest

/-! ## Operators waiting for operands -/

/-- An operator together with the operands it has so far. -/
inductive Frame where
  /-- Waits for its only operand. -/
  | unary (op : Unary)
  /-- Waits for its first operand. -/
  | first (op : Binary)
  /-- Has its first operand and waits for the second. -/
  | second (op : Binary) (l : Expr)

namespace Frame

/-- The keyword of the waiting operator. -/
def keyword : Frame → String
  | .unary op => op.keyword
  | .first op => op.keyword
  | .second op _ => op.keyword

/-- The index of the operand that the operator waits for. -/
def index : Frame → Nat
  | .unary _ | .first _ => 0
  | .second .. => 1

end Frame

/-- Where the reader stands: it has a whole expression, or operators wait, the innermost first. -/
inductive Progress where
  | complete (e : Expr)
  | waiting (stack : List Frame)

namespace Progress

/-- Gives a finished expression to the innermost waiting operator. -/
def supply : Expr → List Frame → Progress
  | e, [] => .complete e
  | e, .unary op :: stack => supply (op.apply e) stack
  | e, .first op :: stack => .waiting (.second op e :: stack)
  | e, .second op l :: stack => supply (op.apply l e) stack

/-- Reads one token. -/
def read (stack : List Frame) : Token → Progress
  | .unary op => .waiting (.unary op :: stack)
  | .binary op => .waiting (.first op :: stack)
  | .null => supply .empty stack
  | .symbol c => supply (.symbol c) stack

end Progress

/-! ## The reader -/

/-- The error when the words run out while operators wait. -/
def ParseError.outOfWords (consumed : Nat) : List Frame → ParseError
  | [] => .noInput
  | frame :: _ => .missingOperand frame.keyword frame.index consumed

/-- Reads words while operators wait, `consumed` words having been read before. -/
def Expr.parseWords (stack : List Frame) (consumed : Nat) :
    List (List Char) → Except ParseError Expr
  | [] => .error (.outOfWords consumed stack)
  | word :: rest =>
    match Token.read? word with
    | none => .error (.badSymbol (String.ofList word))
    | some token =>
      match Progress.read stack token with
      | .waiting stack => parseWords stack (consumed + 1) rest
      | .complete e =>
        if rest.isEmpty then .ok e else .error (.trailing (rest.map String.ofList))

/-- The expression whose prefix form the words of `text` are. -/
def Expr.parse (text : String) : Except ParseError Expr :=
  parseWords [] 0 (Text.words text.toList)

end LexGen
