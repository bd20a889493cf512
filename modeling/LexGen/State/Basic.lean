-- SUMMARY: Names of automaton states, with their equality, order and hash.
import LexGen.Text.Numeral

/-! # States

A simple state has a label, and sometimes an ordinal, its position in a written table. A composed
state stands for a set of states merged into one. Labels and members alone decide whether states
are equal and how they compare; ordinals never do.

In the order, simple states come before composed ones. Labels that are numerals come first, by their
numbers, and equal numbers by their texts; other labels follow by their texts. Composed states
compare member by member. -/

namespace LexGen

/-- The name of a state. -/
inductive State where
  | simple (label : String) (ordinal : Option Nat)
  /-- The members are listed in increasing order. -/
  | composed (members : List State)

namespace State

/-- The number that a label denotes. -/
def labelNumber? (label : String) : Option Nat :=
  Text.Numeral.read? label.toList

/-- The label of the state that undefined transitions lead to. -/
def sinkLabel : String := "S"

/-! ## Simple states -/

/-- The state with the given label; its ordinal is the number of the label. -/
def ofLabel (label : String) : State :=
  .simple label (labelNumber? label)

/-- The state labelled with the decimal digits of a number. -/
def numbered (n : Nat) : State :=
  ofLabel (String.ofList (Text.Numeral.write n))

/-- The extra sink state, at the given ordinal. -/
def sink (ordinal : Nat) : State :=
  .simple sinkLabel (some ordinal)

/-- The label of a simple state. -/
def label? : State → Option String
  | .simple label _ => some label
  | .composed _ => none

/-- The number of the label of a simple state. -/
def number? (s : State) : Option Nat :=
  s.label?.bind labelNumber?

/-- The ordinal of a simple state. -/
def ordinal? : State → Option Nat
  | .simple _ ordinal => ordinal
  | .composed _ => none

/-- The members of a composed state. -/
def members? : State → Option (List State)
  | .simple .. => none
  | .composed members => some members

/-! ## Equality -/

mutual

/-- Whether two states have the same label, or pairwise equal members. -/
def same : State → State → Bool
  | .simple a _, .simple b _ => a == b
  | .composed xs, .composed ys => sameMembers xs ys
  | _, _ => false

/-- Whether two lists of states are equal, element by element. -/
def sameMembers : List State → List State → Bool
  | [], [] => true
  | x :: xs, y :: ys => x.same y && sameMembers xs ys
  | _, _ => false

end

instance : BEq State := ⟨same⟩

/-- The number that a numbered state is labelled with, in its usual digits. -/
def index? (s : State) : Option Nat :=
  s.number?.filter (numbered · == s)

/-! ## Hash -/

mutual

/-- A hash of what equality looks at. -/
def hashOf : State → UInt64
  | .simple label _ => mixHash 0 (hash label)
  | .composed members => mixHash 1 (hashMembers members)

/-- A hash of a list of states. -/
def hashMembers : List State → UInt64
  | [] => 7
  | x :: xs => mixHash x.hashOf (hashMembers xs)

end

instance : Hashable State := ⟨hashOf⟩

/-! ## Order -/

/-- The order of labels. -/
def cmpLabel (a b : String) : Ordering :=
  match labelNumber? a, labelNumber? b with
  | some m, some n => (compare m n).then (compare a b)
  | some _, none => .lt
  | none, some _ => .gt
  | none, none => compare a b

mutual

/-- The order of states. -/
def cmp : State → State → Ordering
  | .simple a _, .simple b _ => cmpLabel a b
  | .simple .., .composed _ => .lt
  | .composed _, .simple .. => .gt
  | .composed xs, .composed ys => cmpMembers xs ys

/-- The order of lists of states: the first difference decides, and a shorter list comes before its
extensions. -/
def cmpMembers : List State → List State → Ordering
  | [], [] => .eq
  | [], _ :: _ => .lt
  | _ :: _, [] => .gt
  | x :: xs, y :: ys => (x.cmp y).then (cmpMembers xs ys)

end

instance : Ord State := ⟨cmp⟩

/-- The states in increasing order; equal ones keep their places among each other. -/
def sort (states : List State) : List State :=
  states.mergeSort (fun a b => a.cmp b != .gt)

end State

end LexGen
