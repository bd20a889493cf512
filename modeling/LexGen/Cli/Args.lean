-- SUMMARY: The command line: its subcommands, options and operands.

/-! # Arguments

Options may stand among the operands, up to an argument `--`, behind which everything is an operand.
A long option takes its value behind `=` or from the next argument; a short one also takes it from
the rest of its own argument, and short options without a value may share one argument. A value
that is an argument of its own does not start with a hyphen, unless it is just that. Reading stops
at the first argument that is wrong or asks for help. -/

namespace LexGen.Cli

/-! ## Invocations -/

/-- What `compile` is told. -/
structure CompileArgs where
  /-- The token name, for a table entry instead of just a block. -/
  token : Option String
  nfaCsv : Option String
  dfaCsv : Option String
  input : String
  output : Option String
  deriving DecidableEq

/-- What `lex` is told. -/
structure LexArgs where
  table : String
  input : Option String
  deriving DecidableEq

/-- What a command line asks for. -/
inductive Invocation where
  | compile (args : CompileArgs)
  | lex (args : LexArgs)
  | help
  | version
  /-- The command line is wrong. -/
  | misuse
  deriving DecidableEq

/-! ## Options -/

/-- The options that take a value. -/
inductive Setting where
  | token
  | nfaCsv
  | dfaCsv
  deriving DecidableEq

namespace Setting

/-- The name of the option behind two hyphens. -/
def long : Setting → List Char
  | .token => "token".toList
  | .nfaCsv => "nfa-csv".toList
  | .dfaCsv => "dfa-csv".toList

/-- The letter of the option behind one hyphen. -/
def short? : Setting → Option Char
  | .token => some 't'
  | _ => none

/-- Whether a text can be the value of the option: a path is not empty. -/
def admits (s : Setting) (value : List Char) : Bool :=
  s = .token || !value.isEmpty

end Setting

/-- What one argument is, given the options with values that are known where it stands. -/
inductive Argument where
  /-- The two hyphens that end the options. -/
  | terminator
  | operand (text : List Char)
  /-- Options without a value. -/
  | plain
  /-- An option with its value, if that is part of the argument. -/
  | setting (s : Setting) (value : Option (List Char))
  | help
  | version
  | wrong
  deriving DecidableEq

namespace Argument

/-- What short options mean, behind their hyphen. -/
def ofLetters (known : List Setting) (hasVersion : Bool) : List Char → Argument
  | [] => .plain
  | 'v' :: rest => ofLetters known hasVersion rest
  | 'h' :: _ => .help
  | c :: rest =>
    if c = 'V' && hasVersion then .version
    else
      match known.find? (·.short? = some c), rest with
      | none, _ => .wrong
      | some s, [] => .setting s none
      | some s, '=' :: value => .setting s (some value)
      | some s, value => .setting s (some value)

/-- What a long option means, behind its hyphens. -/
def ofName (known : List Setting) (hasVersion : Bool) (text : List Char) : Argument :=
  let name := text.takeWhile (· ≠ '=')
  let value := (text.dropWhile (· ≠ '=')).tail?
  match known.find? (·.long = name) with
  | some s => .setting s value
  | none =>
    if value.isSome then .wrong
    else if name = "verbose".toList then .plain
    else if name = "help".toList then .help
    else if name = "version".toList && hasVersion then .version
    else .wrong

/-- What an argument means. -/
def of (known : List Setting) (hasVersion : Bool) : List Char → Argument
  | ['-', '-'] => .terminator
  | '-' :: '-' :: name => ofName known hasVersion name
  | '-' :: c :: letters => ofLetters known hasVersion (c :: letters)
  | text => .operand text

end Argument

/-! ## The arguments of a subcommand -/

/-- The options and operands of a subcommand. -/
structure Found where
  settings : List (Setting × List Char) := []
  operands : List (List Char) := []

namespace Found

/-- The value of an option. -/
def value? (f : Found) (s : Setting) : Option String :=
  (f.settings.lookup s).map String.ofList

/-- Adds an option, which must be the first of its kind and have a fitting value. -/
def set? (f : Found) (s : Setting) (value : List Char) : Option Found :=
  if (f.settings.lookup s).isSome || !s.admits value then none
  else some { f with settings := (s, value) :: f.settings }

/-- Adds operands behind the others; none of them may be empty, and no subcommand has more than
two. -/
def addOperands? (f : Found) (texts : List (List Char)) : Option Found :=
  let operands := f.operands ++ texts
  if texts.any (·.isEmpty) || 2 < operands.length then none
  else some { f with operands }

end Found

/-- The outcome of reading the arguments of a subcommand. -/
inductive Scan where
  | found (f : Found)
  | help
  | wrong

/-- Whether an argument of its own can be the value of the option in front of it. -/
def isValue : List Char → Bool
  | ['-'] => true
  | '-' :: _ => false
  | _ => true

/-- Reads arguments, behind the options and operands found before. -/
def scan (known : List Setting) (f : Found) : List (List Char) → Scan
  | [] => .found f
  | arg :: rest =>
    match Argument.of known false arg with
    | .terminator => (f.addOperands? rest).elim .wrong .found
    | .operand text =>
      match f.addOperands? [text] with
      | some f => scan known f rest
      | none => .wrong
    | .plain => scan known f rest
    | .setting s (some value) =>
      match f.set? s value with
      | some f => scan known f rest
      | none => .wrong
    | .setting s none =>
      match rest with
      | [] => .wrong
      | value :: rest =>
        if isValue value then
          match f.set? s value with
          | some f => scan known f rest
          | none => .wrong
        else .wrong
    | .help => .help
    | .version | .wrong => .wrong

/-! ## Whole command lines -/

/-- The invocation of `compile`. -/
def compileInvocation (args : List (List Char)) : Invocation :=
  match scan [.token, .nfaCsv, .dfaCsv] {} args with
  | .help => .help
  | .wrong => .misuse
  | .found f =>
    let make (input : List Char) (output : Option (List Char)) : Invocation :=
      .compile ⟨f.value? .token, f.value? .nfaCsv, f.value? .dfaCsv, String.ofList input,
        output.map String.ofList⟩
    match f.operands with
    | [input] => make input none
    | [input, output] => make input (some output)
    | _ => .misuse

/-- The invocation of `lex`. -/
def lexInvocation (args : List (List Char)) : Invocation :=
  match scan [] {} args with
  | .help => .help
  | .wrong => .misuse
  | .found f =>
    match f.operands with
    | [table] => .lex ⟨String.ofList table, none⟩
    | [table, input] => .lex ⟨String.ofList table, some (String.ofList input)⟩
    | _ => .misuse

/-- The invocation of `help`, which takes the name of a subcommand, itself among them. -/
def helpInvocation : List (List Char) → Invocation
  | [] => .help
  | [name] =>
    if ["compile", "lex", "help"].contains (String.ofList name) then .help else .misuse
  | _ => .misuse

/-- What the arguments up to the subcommand ask for. -/
def invocationOf : List (List Char) → Invocation
  | [] => .misuse
  | arg :: rest =>
    match Argument.of [] true arg with
    | .plain => invocationOf rest
    | .help => .help
    | .version => .version
    | .operand name =>
      if name = "compile".toList then compileInvocation rest
      else if name = "lex".toList then lexInvocation rest
      else if name = "help".toList then helpInvocation rest
      else .misuse
    | .terminator | .setting .. | .wrong => .misuse

/-- What a command line asks for. -/
def Invocation.ofArgs (args : List String) : Invocation :=
  invocationOf (args.map String.toList)

end LexGen.Cli
