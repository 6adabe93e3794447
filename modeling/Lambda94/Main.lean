import Lambda94.CommandLine.Run

/-!
# The command-line tool

Reads the words of the command line and the program, and prints what the command writes.  All of it
goes to the terminal, which is standard output: the answers, the remarks about the run and the
failures alike.
-/

namespace Lambda94.CommandLine

/-- Prints a line on the terminal. -/
def printLine (text : Text) : IO Unit := IO.println text.printed

/-- Prints a failure. -/
def printFailure : Failure → IO Unit
  | .usage error => do
    printLine error.message
    printLine "Use --help for usage information."
  | failure => printLine (failure.name ++ ": " ++ failure.message)

/-- Reads the program from a file, or from standard input. -/
def readSource : Option Text → IO Text
  | some path => do return ← IO.FS.readFile path.printed
  | none => do return ← (← IO.getStdin).readToEnd

/-- Prints an outcome and returns the exit code. -/
def report (outcome : Outcome) : IO UInt32 := do
  outcome.output.forM fun (_, text) => printLine text
  match outcome.failure with
  | none => return 0
  | some failure => do
    printFailure failure
    return 1

/-- Does what the options ask for. -/
def serve (options : Options) : IO UInt32 := do
  if options.help then
    IO.print help.printed
    return 0
  if options.version then
    IO.println ("icfp v" ++ version)
    return 0
  match options.command with
  | none => report ⟨[], some (.usage .missingCommand)⟩
  | some command => do
    try
      let source ← readSource options.path
      report (run command source options.verbose options.budget)
    catch error =>
      IO.println ("Error: " ++ toString error)
      return 1

end Lambda94.CommandLine

open Lambda94.CommandLine in
/-- The tool. -/
def main (args : List String) : IO UInt32 :=
  match Options.ofArgs (args.map Lambda94.Text.ofString) with
  | .error error => report ⟨[], some (.usage error)⟩
  | .ok options => serve options
