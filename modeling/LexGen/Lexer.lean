-- SUMMARY: Splitting a text into lexemes by the automata of a table.
import LexGen.Dfa.Run

/-! # Lexing

At every position each automaton reports the longest beginning of the remaining text that it
accepts. The longest of them all is the next lexeme; among equally long ones the automaton listed
first decides. If there is none but the empty one, lexing fails and ends. -/

namespace LexGen

/-- The number of bytes of a text in UTF-8. -/
def byteLength : List Char → Nat
  | [] => 0
  | c :: text => c.utf8Size + byteLength text

/-- A part of the text that an automaton recognised. -/
structure Lexeme where
  /-- The token name of the automaton. -/
  token : String
  text : List Char
  /-- The byte positions of the text in the input: of its first byte, and behind its last. -/
  start : Nat
  stop : Nat
  deriving DecidableEq

/-- No automaton accepts a nonempty beginning of the text from this byte position on. -/
structure NoMatch where
  position : Nat
  deriving DecidableEq

/-- The wording of the failure. -/
def NoMatch.message (e : NoMatch) : String :=
  s!"No token matches the input at byte {e.position}"

/-- A lexer at some position of its input. -/
structure Lexer where
  dfas : Table
  /-- The input from the position on. -/
  rest : List Char
  /-- The position in bytes. -/
  position : Nat
  /-- Whether lexing has failed. -/
  failed : Bool

namespace Lexer

/-- A lexer at the beginning of its input. -/
def new (dfas : Table) (input : List Char) : Lexer :=
  ⟨dfas, input, 0, false⟩

/-! ## One lexeme -/

/-- The longest nonempty beginning of `text` that one of the automata accepts, with the first
automaton that accepts it. -/
def longest? (text : List Char) : Table → Option (Dfa × List Char)
  | [] => none
  | d :: ds =>
    let own := (d.longest text).text
    match longest? text ds with
    | some (d', best) => if best.length ≤ own.length then some (d, own) else some (d', best)
    | none => if own.isEmpty then none else some (d, own)

/-- The next lexeme or failure, and the lexer behind it. There is none at the end of the input and
after a failure. -/
def next (l : Lexer) : Option (Except NoMatch Lexeme) × Lexer :=
  if l.failed || l.rest.isEmpty then (none, l)
  else
    match longest? l.rest l.dfas with
    | none => (some (.error ⟨l.position⟩), { l with failed := true })
    | some (d, text) =>
      let stop := l.position + byteLength text
      (some (.ok ⟨d.token, text, l.position, stop⟩),
        { l with rest := l.rest.drop text.length, position := stop })

/-! ## All lexemes -/

theorem length_pos_of_longest? {text best : List Char} {ds : Table} {d : Dfa}
    (h : longest? text ds = some (d, best)) : 0 < best.length := by
  induction ds generalizing d best with
  | nil => cases h
  | cons d' ds ih =>
    unfold longest? at h
    dsimp only at h
    split at h
    · rename_i h'
      have := ih h'
      split at h
      · cases h
        omega
      · cases h
        exact this
    · split at h
      · cases h
      · cases h
        simp_all [List.length_pos_iff]

theorem length_rest_of_next {l l' : Lexer} {lexeme : Lexeme}
    (h : l.next = (some (.ok lexeme), l')) : l'.rest.length < l.rest.length := by
  unfold next at h
  split at h
  · cases h
  · rename_i hrest
    split at h
    · cases h
    · rename_i hbest
      cases h
      have := length_pos_of_longest? hbest
      have : 0 < l.rest.length := by simp_all [List.length_pos_iff]
      simp
      omega

/-- The lexemes up to the end of the input or to a failure, and the failure. -/
def lexemes (l : Lexer) : List Lexeme × Option NoMatch :=
  match _h : l.next with
  | (none, _) => ([], none)
  | (some (.error e), _) => ([], some e)
  | (some (.ok lexeme), l') =>
    let (rest, failure) := lexemes l'
    (lexeme :: rest, failure)
termination_by l.rest.length
decreasing_by exact length_rest_of_next ‹_›

end Lexer

end LexGen
