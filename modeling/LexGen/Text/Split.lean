-- SUMMARY: Cutting a text at the first or at the last occurrence of a character.

/-! # Cutting a text in two -/

namespace LexGen.Text

/-- The parts in front of and behind the first `c`. -/
def splitFirst? (c : Char) : List Char → Option (List Char × List Char)
  | [] => none
  | x :: xs =>
    if x = c then some ([], xs)
    else (splitFirst? c xs).map fun (before, behind) => (x :: before, behind)

/-- The parts in front of and behind the last `c`. -/
def splitLast? (c : Char) (text : List Char) : Option (List Char × List Char) :=
  (splitFirst? c text.reverse).map fun (behind, before) => (before.reverse, behind.reverse)

end LexGen.Text
