import SchemaAtlas.CommandLine.LocalMachine
import SchemaAtlas.CommandLine.Run

/-!
# The command line

Runs the words of the command line on this machine.
-/

def main (words : List String) : IO UInt32 := do
  let outcome ← SchemaAtlas.CommandLine.run SchemaAtlas.LocalMachine.machine words
  IO.print outcome.output
  IO.eprint outcome.errors
  return outcome.code.toUInt32
