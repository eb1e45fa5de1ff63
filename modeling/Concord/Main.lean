import Concord.CommandLine.Response

/-! # The program

It reads the command line and the environment variable, and prints the response to them.
-/

open Concord.CommandLine in
/-- Runs the command line and exits with the code of its response. -/
def main (words : List String) : IO UInt32 := do
  match answer? ampleFuel words (← IO.getEnv "SIMP_MAX_STEPS") with
  | none => return 2
  | some response =>
    IO.print response.stdout
    IO.eprint response.stderr
    return response.exitCode
