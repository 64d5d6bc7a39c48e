import Chunkwise.Command.Bundle
import Chunkwise.Command.Run
import Chunkwise.Json.Reader

/-!
# The command

Runs the command with its arguments on the files that the first line of the standard input lists as JSON, and leaves
with its exit code. Without a list there are no files.
-/

open Chunkwise

/-- Reads a list of files and runs the command. -/
def main (args : List String) : IO UInt32 := do
  let input ← (← IO.getStdin).getLine
  let bundle := ((Json.parse? input.toList).bind Bundle.ofJson?).getD {}
  let setup : Command.Setup :=
    { files := bundle.files
      environment := ← IO.getEnv Command.configVariable
      grammars := Grammars.ofLanguages Language.all
      parser := KnownTree.parser bundle.known }
  let ending := Command.execute setup args
  (← IO.getStdout).putStr ending.output
  (← IO.getStderr).putStr ending.complaint
  return UInt32.ofNat ending.code
