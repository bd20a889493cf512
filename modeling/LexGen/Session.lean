-- SUMMARY: A working session: compiling automata, collecting them in a table, stepping through words and lexing.
import LexGen.Dfa.Named
import LexGen.Expr.Parser
import LexGen.Lexer
import LexGen.Nfa.Subsets
import LexGen.Nfa.Thompson
import LexGen.Table.Printer
import LexGen.Table.Reader

/-! # Sessions

A session calls the operations on automata, tables and lexers in any order. It holds a table, a
current automaton, a configuration to step from, and two lexers, one of them set aside. A command
answers something and changes the session; a command that fails leaves it as it was. A change of the
current automaton does not touch the configuration, and a change of the table does not touch the
lexers. -/

namespace LexGen

/-- What a session holds. -/
structure Session where
  table : Table := []
  current : Option Dfa := none
  /-- A state by name, and the input left. -/
  configuration : Option (State × List Char) := none
  lexer : Option Lexer := none
  saved : Option Lexer := none

namespace Session

/-! ## Commands, answers and errors -/

/-- What a session can be asked to do. -/
inductive Command where
  /-- Makes the automaton of an expression the current one. -/
  | compile (e : Expr) (token : String)
  /-- Renames the token class of the current automaton. -/
  | token (name : String)
  /-- Appends the current automaton to the table. -/
  | push
  /-- Makes an entry of the table the current automaton. -/
  | select (index : Nat)
  /-- Replaces the table by the one with the given text. -/
  | read (text : String)
  /-- Shows the text of the table. -/
  | write
  /-- Replaces the table by what is read from its own text. -/
  | reload
  /-- Reverses the order of the entries. -/
  | reverse
  /-- Sets the configuration, by default to the start state of the current automaton. -/
  | begin (word : List Char) (state : Option State)
  /-- Reads one character from the configuration. -/
  | step
  /-- Determines the sinks of the current automaton anew. -/
  | sinks
  /-- Shows a transition and the kind of a state. -/
  | query (state : State) (c : Char)
  /-- Shows whether the current automaton accepts a word. -/
  | accept (word : List Char)
  /-- Shows the longest beginning of a text that the current automaton accepts. -/
  | longest (text : List Char)
  /-- Shows the current automaton. -/
  | dump
  /-- Opens a lexer on an input, with the table as it is. -/
  | lexer (input : List Char)
  /-- Shows the next item of the lexer. -/
  | next
  /-- Shows the input that is left to the lexer. -/
  | rest
  /-- Sets a copy of the lexer aside. -/
  | fork
  /-- Exchanges the lexer and the one set aside. -/
  | swap

/-- What a command answers. -/
inductive Answer where
  | nothing
  | number (n : Nat)
  | text (s : String)
  | texts (ss : List String)
  | state (s : State)
  | states (ss : List State)
  | bool (b : Bool)
  | configuration (s : State) (rest : List Char) (sink accepting : Bool)
  | transition (target : Option State) (sink accepting : Bool)
  | longest (m : Dfa.Longest)
  | automaton (d : Dfa)
  | item (result : Option (Except NoMatch Lexeme)) (behind : Lexer)

/-- Why a command fails. -/
inductive Error where
  | noAutomaton
  | noEntry
  | noConfiguration
  | noLexer
  | table (e : Table.Error)

/-- The wording of an error. -/
def Error.message : Error → String
  | .noAutomaton => "no current automaton"
  | .noEntry => "no such entry"
  | .noConfiguration => "no configuration"
  | .noLexer => "no lexer"
  | .table e => e.message

/-! ## Execution -/

/-- The current automaton. -/
def dfa (s : Session) : Except Error Dfa :=
  s.current.elim (.error .noAutomaton) .ok

/-- The lexer in use. -/
def openLexer (s : Session) : Except Error Lexer :=
  s.lexer.elim (.error .noLexer) .ok

/-- Replaces the table by the one with the given text. -/
def load (s : Session) (text : String) : Except Error (Answer × Session) :=
  match Table.parse text with
  | .ok table => .ok (.number table.length, { s with table })
  | .error e => .error (.table e)

/-- Carries a command out. -/
def run (s : Session) : Command → Except Error (Answer × Session)
  | .compile e token =>
    let d := e.toNfa.toDfa.withToken token
    return (.number d.size, { s with current := some d })
  | .token name => do
    let d ← s.dfa
    return (.text name, { s with current := some (d.withToken name) })
  | .push => do
    let table := s.table ++ [← s.dfa]
    return (.number table.length, { s with table })
  | .select index =>
    match s.table[index]? with
    | some d => return (.text d.token, { s with current := some d })
    | none => throw .noEntry
  | .read text => s.load text
  | .write => return (.text s.table.render, s)
  | .reload => s.load s.table.render
  | .reverse =>
    let table := s.table.reverse
    return (.texts (table.map (·.token)), { s with table })
  | .begin word state => do
    let d ← s.dfa
    let state := state.getD (d.stateAt d.start)
    return (.state state, { s with configuration := some (state, word) })
  | .step => do
    let d ← s.dfa
    match s.configuration with
    | none => throw .noConfiguration
    | some (state, rest) =>
      let (state, rest) := d.stepNamed state rest
      return (.configuration state rest (d.isSinkNamed state) (d.isAcceptingNamed state),
        { s with configuration := some (state, rest) })
  | .sinks => do
    let d := (← s.dfa).withSinks
    return (.states (d.sinks.map d.stateAt), { s with current := some d })
  | .query state c => do
    let d ← s.dfa
    return (.transition (d.getNamed? state c) (d.isSinkNamed state) (d.isAcceptingNamed state), s)
  | .accept word => do
    return (.bool ((← s.dfa).accept word), s)
  | .longest text => do
    return (.longest ((← s.dfa).longest text), s)
  | .dump => do
    return (.automaton (← s.dfa), s)
  | .lexer input =>
    return (.number (byteLength input), { s with lexer := some (.new s.table input) })
  | .next => do
    let (result, behind) := (← s.openLexer).next
    return (.item result behind, { s with lexer := some behind })
  | .rest => do
    return (.text (String.ofList (← s.openLexer).rest), s)
  | .fork => do
    return (.nothing, { s with saved := some (← s.openLexer) })
  | .swap => return (.nothing, { s with lexer := s.saved, saved := s.lexer })

end Session

end LexGen
