import ActorScript.CommandLine

/-!
# The executable

Writes what `CommandLine.run` answers to the two streams and exits with its code.
-/

open ActorScript

def main (arguments : List String) : IO UInt32 := do
  let response := CommandLine.run arguments
  IO.print response.stdout
  IO.eprint response.stderr
  return UInt32.ofNat response.code
