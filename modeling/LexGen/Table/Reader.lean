-- SUMMARY: Reading a table of automata line by line.
import LexGen.Dfa.Basic
import LexGen.Table.Line
import LexGen.Text.Lines

/-! # Reading tables

An entry is five header lines and the lines up to the next empty one, which hold its transitions.
One empty line behind an entry is skipped, and the table ends when only blank lines are left. Lines
are read in order, and the first faulty one decides the error; only the number of states is judged
when the transitions are known. -/

namespace LexGen

/-! ## Positions in the text -/

/-- The lines still to be read, and the number of the first of them. -/
structure Cursor where
  lines : List (List Char)
  number : Nat

namespace Cursor

/-- Reads the next line. -/
def next {α : Type} (k : Cursor) (expected : String) (read : List Char → Except Table.Fault α) :
    Except Table.Error (α × Cursor) :=
  match k.lines with
  | [] => .error ⟨k.number, .truncated expected⟩
  | line :: rest =>
    match read line with
    | .ok a => .ok (a, ⟨rest, k.number + 1⟩)
    | .error fault => .error ⟨k.number, fault⟩

theorem length_lines_of_next {α : Type} {k k' : Cursor} {expected : String}
    {read : List Char → Except Table.Fault α} {a : α} (h : k.next expected read = .ok (a, k')) :
    k'.lines.length < k.lines.length := by
  unfold next at h
  split at h
  · cases h
  · rename_i hlines
    split at h
    · cases h
      simp [hlines]
    · cases h

/-- Reads the transitions up to the next empty line, in front of those in `edges`. -/
def nextEdges (alphabet : List Char) (count : Nat) (edges : List (Edge Nat Char)) (number : Nat) :
    (lines : List (List Char)) → Except Table.Error (List (Edge Nat Char) × Cursor)
  | [] => .ok (edges, ⟨[], number⟩)
  | line :: rest =>
    if line.isEmpty then .ok (edges, ⟨line :: rest, number⟩)
    else
      match readNewEdge alphabet count edges line with
      | .ok e => nextEdges alphabet count (e :: edges) (number + 1) rest
      | .error fault => .error ⟨number, fault⟩

theorem length_lines_of_nextEdges {alphabet : List Char} {count number : Nat}
    {edges edges' : List (Edge Nat Char)} {lines : List (List Char)} {k : Cursor}
    (h : nextEdges alphabet count edges number lines = .ok (edges', k)) :
    k.lines.length ≤ lines.length := by
  induction lines generalizing edges number with
  | nil =>
    cases h
    simp
  | cons line rest ih =>
    unfold nextEdges at h
    split at h
    · cases h
      simp
    · split at h
      · have := ih h
        simp
        omega
      · cases h

/-- Skips an empty line. -/
def skipEmpty (k : Cursor) : Cursor :=
  match k.lines with
  | [] :: rest => ⟨rest, k.number + 1⟩
  | _ => k

theorem length_lines_skipEmpty (k : Cursor) : k.skipEmpty.lines.length ≤ k.lines.length := by
  unfold skipEmpty
  split <;> simp_all

/-- Whether only blank lines are left. -/
def onlyBlanks (k : Cursor) : Bool :=
  k.lines.all (·.all Text.isBlank)

end Cursor

/-! ## Entries -/

/-- The symbols of the alphabet in its order, and behind them the other labels of the transitions. -/
def Automaton.labels (alphabet : List Char) (edges : List (Edge Nat Char)) : List Char :=
  (alphabet ++ edges.map (·.label)).eraseDups

/-- The automaton with `count` states and the given transitions. A row keeps all transitions out of
its state, also those that are on no symbol of the alphabet. -/
def Automaton.ofEdges (alphabet : List Char) (count start : Nat) (accepting : List Nat)
    (edges : List (Edge Nat Char)) : Automaton where
  alphabet := alphabet
  rows :=
    let cs := labels alphabet edges
    ((List.range count).map fun q =>
      cs.filterMap fun c =>
        (edges.find? fun e => e.source == q && e.label == c).map fun e => (c, e.target)).toArray
  start := start
  accepting := (List.range count).filter accepting.contains

/-- The automaton of an entry: its trap is its first sink, or else a state outside. -/
def Automaton.toEntry (a : Automaton) (token : String) : Dfa :=
  match a.deadStates with
  | [] => .ofAutomaton a token a.size true
  | sink :: _ => .ofAutomaton a token sink false

theorem exists_of_bind_eq_ok {ε α β : Type} {x : Except ε α} {f : α → Except ε β} {b : β}
    (h : x >>= f = .ok b) : ∃ a, x = .ok a ∧ f a = .ok b := by
  cases x with
  | error e => cases h
  | ok a => exact ⟨a, rfl, h⟩

/-- What the lines of an entry say. -/
structure Entry where
  token : String
  alphabet : List Char
  count : Nat
  start : Nat
  accepting : List Nat
  edges : List (Edge Nat Char)

/-- The automaton of an entry. -/
def Entry.dfa (x : Entry) : Dfa :=
  (Automaton.ofEdges x.alphabet x.count x.start x.accepting x.edges).toEntry x.token

/-- Reads the lines of one entry. -/
def Cursor.readFields (k : Cursor) : Except Table.Error (Entry × Cursor) := do
  let (token, k) ← k.next "a token name" readToken
  let (alphabet, k) ← k.next "an alphabet" readAlphabet
  let countLine := k.number
  let (count, k) ← k.next "a state count" readNumber
  let (start, k) ← k.next "a start state" (readOrdinal count)
  let (accepting, k) ← k.next "accepting states" (readOrdinals count)
  let (edges, k) ← nextEdges alphabet count [] k.number k.lines
  let max := edges.length + 2
  if max < count then .error ⟨countLine, .tooManyStates count max⟩
  else .ok ({ token, alphabet, count, start, accepting, edges }, k)

theorem Cursor.length_lines_of_readFields {k k' : Cursor} {x : Entry}
    (h : k.readFields = .ok (x, k')) : k'.lines.length < k.lines.length := by
  obtain ⟨⟨_, k₁⟩, h₁, h⟩ := exists_of_bind_eq_ok h
  obtain ⟨⟨_, k₂⟩, h₂, h⟩ := exists_of_bind_eq_ok h
  obtain ⟨⟨_, k₃⟩, h₃, h⟩ := exists_of_bind_eq_ok h
  obtain ⟨⟨_, k₄⟩, h₄, h⟩ := exists_of_bind_eq_ok h
  obtain ⟨⟨_, k₅⟩, h₅, h⟩ := exists_of_bind_eq_ok h
  obtain ⟨⟨_, k₆⟩, h₆, h⟩ := exists_of_bind_eq_ok h
  have := length_lines_of_next h₁
  have := length_lines_of_next h₂
  have := length_lines_of_next h₃
  have := length_lines_of_next h₄
  have := length_lines_of_next h₅
  have := length_lines_of_nextEdges h₆
  dsimp only at h
  split at h
  · cases h
  · cases h
    omega

/-- Reads one entry. -/
def Cursor.readEntry (k : Cursor) : Except Table.Error (Dfa × Cursor) := do
  let (x, k) ← k.readFields
  return (x.dfa, k)

theorem Cursor.length_lines_of_readEntry {k k' : Cursor} {d : Dfa}
    (h : k.readEntry = .ok (d, k')) : k'.lines.length < k.lines.length := by
  obtain ⟨⟨x, k₁⟩, hfields, h⟩ := exists_of_bind_eq_ok h
  cases h
  exact length_lines_of_readFields hfields

/-- Reads entries up to the end. -/
def Cursor.readEntries (k : Cursor) : Except Table.Error Table :=
  if k.onlyBlanks then .ok []
  else
    match _h : k.readEntry with
    | .error e => .error e
    | .ok (d, k') =>
      match readEntries k'.skipEmpty with
      | .error e => .error e
      | .ok ds => .ok (d :: ds)
termination_by k.lines.length
decreasing_by
  exact Nat.lt_of_le_of_lt k'.length_lines_skipEmpty (Cursor.length_lines_of_readEntry ‹_›)

/-- The table with the given text. -/
def Table.parse (text : String) : Except Table.Error Table :=
  Cursor.readEntries ⟨Text.lines text.toList, 1⟩

end LexGen
