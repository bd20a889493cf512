-- SUMMARY: The commands of the command line program as scripts.
import LexGen.Cli.Args
import LexGen.Cli.Script
import LexGen.Csv
import LexGen.Expr.Parser
import LexGen.Lexer
import LexGen.Nfa.Subsets
import LexGen.Nfa.Thompson
import LexGen.Table.Printer
import LexGen.Table.Reader

/-! # Commands

`compile` reads an expression and writes its automaton, first the listings of edges if they are
asked for, then the table. `lex` reads a table and a text and prints a line for each lexeme. Each
step that fails ends the program; what was written before stays. -/

namespace LexGen.Cli

/-! ## Steps that may fail -/

/-- Reads a file that must hold a text. -/
def readText (path : String) (behind : String → Script) : Script :=
  .readFile path fun
    | some text => behind text
    | none => .fail 1 ("Error reading " ++ path)

/-- Writes a file. -/
def writeText (path content : String) (behind : Script) : Script :=
  .writeFile path content fun written =>
    if written then behind else .fail 1 ("Error writing " ++ path)

/-- Writes a file if it is asked for. -/
def writeOptional (path : Option String) (content : String) (behind : Script) : Script :=
  match path with
  | some path => writeText path content behind
  | none => behind

/-! ## Compiling -/

/-- The written automaton: a table of one entry if there is a token name, or else just a block. -/
def automatonText (d : Dfa) : Option String → String
  | some token => Table.render [d.withToken token]
  | none => d.render

/-- Compiles an expression. -/
def compile (args : CompileArgs) : Script :=
  readText args.input fun text =>
    match Expr.parse text with
    | .error e => .fail 1 ("Error parsing regular expression: " ++ e.message)
    | .ok e =>
      let m := e.toNfa
      let d := m.toDfa
      let table := automatonText d args.token
      writeOptional args.nfaCsv (CsvRow.render m.csvRows)
        (writeOptional args.dfaCsv (CsvRow.render d.csvRows)
          (match args.output with
            | some path => writeText path table .done
            | none => .print table .done))

/-! ## Lexing -/

/-- The printed line of a lexeme: its token name as it is, and its text with escapes. -/
def lexemeLine (lexeme : Lexeme) : String :=
  lexeme.token ++ "\t" ++ String.ofList (Text.Escape.encode lexeme.text) ++ "\n"

/-- Prints lexemes, and then ends, with a failure if there is one. -/
def printLexemes (failure : Option NoMatch) : List Lexeme → Script
  | [] =>
    match failure with
    | none => .done
    | some e => .fail 1 ("Error tokenizing input: " ++ e.message)
  | lexeme :: rest => .print (lexemeLine lexeme) (printLexemes failure rest)

/-- Splits a text by a table. -/
def lexText (table : Table) (text : String) : Script :=
  let (lexemes, failure) := (Lexer.new table text.toList).lexemes
  printLexemes failure lexemes

/-- Lexes a text. -/
def lex (args : LexArgs) : Script :=
  readText args.table fun text =>
    match Table.parse text with
    | .error e => .fail 1 ("Error loading lexer table " ++ args.table ++ ": " ++ e.message)
    | .ok table =>
      match args.input with
      | some path => readText path (lexText table)
      | none => .readInput fun
        | some text => lexText table text
        | none => .fail 1 "Error reading standard input"

/-! ## The program -/

/-- How to use the program. -/
def usage : String :=
  "Usage: munchc [-v] compile [-t TOKEN] [--nfa-csv FILE] [--dfa-csv FILE] INPUT [OUTPUT]\n" ++
  "       munchc [-v] lex TABLE [INPUT]\n"

/-- What an invocation does. -/
def Invocation.script : Invocation → Script
  | .compile args => Cli.compile args
  | .lex args => Cli.lex args
  | .help => .print usage .done
  | .version => .print "munchc 0.1.0\n" .done
  | .misuse => .fail 2 usage

/-- What the program does when it is called with some arguments. -/
def program (args : List String) : Script :=
  (Invocation.ofArgs args).script

end LexGen.Cli
