-- SUMMARY: What a command line program does to its surroundings, as a tree of steps, and its run in a directory held in memory.

/-! # Scripts

A script is a tree: each node is one step, and the tree goes on according to what the step brings.
Files hold bytes, but a program reads texts, so reading fails on bytes that are not UTF-8. A script
says what a program does; running it on real files and streams is left to the caller. -/

namespace LexGen

/-- What a program does, step by step. -/
inductive Script where
  /-- Ends with success. -/
  | done
  /-- Ends with a nonzero exit code, and says why. -/
  | fail (code : Nat) (message : String)
  /-- Reads a whole file; none if there is no such file or its content is not a text. -/
  | readFile (path : String) (behind : Option String → Script)
  /-- Reads all of the standard input; none if it is not a text. -/
  | readInput (behind : Option String → Script)
  /-- Replaces a file, or makes a new one, and goes on if that succeeds. -/
  | writeFile (path content : String) (behind : Bool → Script)
  /-- Writes to the standard output. -/
  | print (text : String) (behind : Script)

/-! ## Directories in memory -/

/-- A directory that holds files only, by their names, and the standard input of a program. -/
structure Directory where
  files : List (String × ByteArray)
  input : ByteArray := .empty

namespace Directory

/-- The name of the file at a path; a path that leads through another directory has none. -/
def fileName? (path : String) : Option String :=
  let parts := path.toList.splitOn '/'
  match parts.filter (fun part => !part.isEmpty && part ≠ ['.']), parts.getLast? with
  | [name], some last =>
    if parts.head? ≠ some [] && last = name && name ≠ ['.', '.'] then some (String.ofList name)
    else none
  | _, _ => none

/-- The text at a path. -/
def read? (dir : Directory) (path : String) : Option String := do
  let name ← fileName? path
  let bytes ← dir.files.lookup name
  String.fromUTF8? bytes

/-- The directory behind the writing of a file. -/
def write? (dir : Directory) (path content : String) : Option Directory := do
  let name ← fileName? path
  return { dir with files := (name, content.toUTF8) :: dir.files.filter (·.1 ≠ name) }

end Directory

/-! ## Runs -/

/-- What is left when a script has ended. -/
structure Outcome where
  exit : Nat
  output : String
  files : List (String × ByteArray)

/-- Runs a script in a directory, behind some output. -/
def Script.run (dir : Directory) (output : String) : Script → Outcome
  | .done => ⟨0, output, dir.files⟩
  | .fail code _ => ⟨code, output, dir.files⟩
  | .readFile path behind => (behind (dir.read? path)).run dir output
  | .readInput behind => (behind (String.fromUTF8? dir.input)).run dir output
  | .writeFile path content behind =>
    match dir.write? path content with
    | some dir => (behind true).run dir output
    | none => (behind false).run dir output
  | .print text behind => behind.run dir (output ++ text)

end LexGen
