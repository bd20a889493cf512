-- SUMMARY: The command line program.
import LexGen.Cli.Command

/-! # The command line program

Scripts run here on real files and streams. -/

namespace LexGen.Cli

/-- The text of some bytes that may not be there. -/
def textOf (read : IO ByteArray) : IO (Option String) := do
  try return String.fromUTF8? (← read)
  catch _ => return none

/-- Runs a script and answers its exit code. -/
def runScript : Script → IO UInt32
  | .done => return 0
  | .fail code message => do
    IO.eprintln message
    return code.toUInt32
  | .readFile path behind => do
    runScript (behind (← textOf (IO.FS.readBinFile path)))
  | .readInput behind => do
    let stdin ← IO.getStdin
    runScript (behind (← textOf stdin.readBinToEnd))
  | .writeFile path content behind => do
    let written ← try
        IO.FS.writeFile path content
        pure true
      catch _ => pure false
    runScript (behind written)
  | .print text behind => do
    IO.print text
    runScript behind

end LexGen.Cli

/-- Runs the program. -/
def main (args : List String) : IO UInt32 :=
  LexGen.Cli.runScript (LexGen.Cli.program args)
