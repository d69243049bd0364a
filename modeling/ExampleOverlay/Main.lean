import ExampleOverlay.CommandLine.Outcome

/-!
# The program

Reads the file that the arguments name, draws the first of the ids to mint, and prints the outcome.
-/

open ExampleOverlay CommandLine

/-- The text of a file, if it can be read. -/
def readText (path : String) : IO (Option String) := do
  try
    return some (← IO.FS.readFile path)
  catch _ =>
    return none

def main (args : List String) : IO UInt32 := do
  let i := invocation args
  let text ← match i.path? with
    | none => pure none
    | some path => readText path
  let seed ← IO.getRandomBytes 16
  let first := BitVec.ofNat 128 (Radix.value 256 (seed.toList.map UInt8.toNat))
  let outcome := i.outcome text fun n => first + BitVec.ofNat 128 n
  IO.print outcome.stdout
  IO.eprint outcome.stderr
  return outcome.exit
