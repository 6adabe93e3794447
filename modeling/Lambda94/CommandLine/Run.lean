import Lambda94.Eval.Machine
import Lambda94.Failure

/-!
# Running commands

What each command writes for the text of a program.  The answer of a command goes to the channel
`result`, everything else it prints to `line`, and remarks about the run to `info`.  What was
written before a failure stays written.
-/

namespace Lambda94.CommandLine

/-- Where a piece of output goes. -/
inductive Channel
  | line
  | result
  | info
deriving DecidableEq, Repr

/-- The name of a channel. -/
def Channel.name : Channel → String
  | .line => "line"
  | .result => "result"
  | .info => "info"

/-- What a command has written, and the failure that ended it, if one did. -/
structure Outcome where
  output : List (Channel × Text) := []
  failure : Option Failure := none
deriving DecidableEq, Repr

/-- The version of the tool. -/
def version : String := "0.4.0"

/-- The help text. -/
def help : Text :=
  "\nicfp v" ++ version ++ "

USAGE:
    icfp <command> [file] [OPTIONS]

COMMANDS:
    parse    Print the renamed syntax tree as JSON
    debug    Print the renamed syntax tree in readable form
    step     Print the program and every expression it reduces to
    run      Print the value the program evaluates to

The program is read from [file], or from standard input when omitted.

OPTIONS:
    -h, --help                 Show this help message
    -v, --version              Show version information
    -V, --verbose              Report step and beta-reduction counts
    -n, --max-iterations <N>   Reduction step budget for the run
                               (default " ++ Decimal.ofInt ({} : Limits).iterations ++ ")
"

/-- The remark about the work that a run took. -/
def workReport (machine : Machine) : Text :=
  "[DEBUG] steps=" ++ Decimal.ofInt machine.steps ++ " betaReductions=" ++
    Decimal.ofInt machine.betas

/-- What is written after an evaluation: the value, unless the steps were shown, and the remark
about the run. -/
def conclusion (stepping verbose : Bool) (value : Value) (machine : Machine) :
    List (Channel × Text) :=
  (if stepping then [] else [(.result, value.pretty)]) ++
    if verbose then [(.info, workReport machine)] else []

/-- Evaluates an expression, showing the steps or the value. -/
def evaluate (expr : Expr) (stepping verbose : Bool) (budget : Number) : Outcome :=
  let first := if stepping then [(Channel.line, expr.pretty)] else []
  match Limits.ofNumbers (some budget) none with
  | .error error => ⟨first, some (.limit error)⟩
  | .ok limits =>
    let shown (machine : Machine) : List (Channel × Text) :=
      if stepping then machine.trace.reverse.map fun e => (.line, "-> " ++ e.pretty) else []
    match (expr.evaluate limits).run {} with
    | .ok value machine =>
      ⟨first ++ shown machine ++ conclusion stepping verbose value machine, none⟩
    | .error error machine => ⟨first ++ shown machine, some (.eval error)⟩

/-- Runs a command on the text of a program. -/
def run (command : Verb) (source : Text) (verbose : Bool) (budget : Number) : Outcome :=
  match Expr.ofText source with
  | .error error => ⟨[], some (.read error)⟩
  | .ok expr =>
    match command with
    | .parse => ⟨[(.result, expr.toJsonText 2)], none⟩
    | .debug => ⟨[(.result, expr.pretty)], none⟩
    | .step => evaluate expr true verbose budget
    | .run => evaluate expr false verbose budget

end Lambda94.CommandLine
