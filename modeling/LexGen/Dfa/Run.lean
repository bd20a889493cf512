-- SUMMARY: Running a deterministic automaton: single steps, acceptance, and the longest accepted beginning of a text.
import LexGen.Dfa.Basic

/-! # Runs

In a gap of the table a run goes to the trap and gives up the rest of its input. The search for the
longest accepted beginning of a text stops in front of the first character that leads into a sink,
because nothing behind it can be accepted any more. -/

namespace LexGen.Dfa

/-! ## Whole words -/

/-- Reads one character: the state and the input behind it. Without input nothing changes. -/
def step (d : Dfa) (q : Nat) : List Char → Nat × List Char
  | [] => (q, [])
  | c :: rest =>
    match d.get? q c with
    | some p => (p, rest)
    | none => (d.trap, [])

/-- The state in which a run from `q` over all of the input ends. -/
def run (d : Dfa) (q : Nat) : (input : List Char) → Nat
  | [] => q
  | c :: rest =>
    match d.get? q c with
    | some p => run d p rest
    | none => d.trap

/-- Whether the automaton accepts a word. -/
def accept (d : Dfa) (word : List Char) : Bool :=
  d.isAccepting (d.run d.start word)

/-! ## The longest accepted beginning -/

/-- The outcome of a search for the longest accepted beginning of a text. -/
structure Longest where
  /-- The longest accepted beginning, empty if there is none. -/
  text : List Char
  /-- The number of characters in front of the first one that leads into a sink. -/
  read : Nat
  deriving DecidableEq

/-- The position of the last character read. -/
def Longest.last? (m : Longest) : Option Nat :=
  if m.read = 0 then none else some (m.read - 1)

/-- Walks on from `q` behind `read` characters, of which the first `best` are the longest accepted
beginning so far. Answers the lengths of the longest accepted beginning and of the part read. -/
def walkFrom (d : Dfa) (q read best : Nat) : (input : List Char) → Nat × Nat
  | [] => (best, read)
  | c :: rest =>
    let p := (d.get? q c).getD d.trap
    if d.isSink p then (best, read)
    else walkFrom d p (read + 1) (if d.isAccepting p then read + 1 else best) rest

/-- The longest beginning of a text that the automaton accepts. -/
def longest (d : Dfa) (text : List Char) : Longest :=
  if d.isSink d.start then ⟨[], 0⟩
  else
    let (best, read) := d.walkFrom d.start 0 0 text
    ⟨text.take best, read⟩

end LexGen.Dfa
