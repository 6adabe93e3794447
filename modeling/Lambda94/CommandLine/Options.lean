import Lambda94.Eval.Limits

/-!
# Command-line options

What the words of a command line ask for.  Options may stand anywhere; of the other words the first
one is the command and the second one the path of the program.
-/

namespace Lambda94.CommandLine

/-- The commands of the tool. -/
inductive Verb
  | parse
  | debug
  | step
  | run
deriving DecidableEq, Repr

/-- The word for a command. -/
def Verb.name : Verb → String
  | .parse => "parse"
  | .debug => "debug"
  | .step => "step"
  | .run => "run"

/-- The commands, as the help lists them. -/
def Verb.all : List Verb := [.parse, .debug, .step, .run]

/-- The command that a word names. -/
def Verb.ofName? (word : Text) : Option Verb := Verb.all.find? fun verb => verb.name == word

/-- What a command line asks for. -/
structure Options where
  help : Bool := false
  version : Bool := false
  verbose : Bool := false
  /-- The budget of steps, as a number that may be too large for a budget. -/
  budget : Number := Number.ofNat ({} : Limits).iterations
  command : Option Verb := none
  /-- The path of the program; without one it is read from standard input. -/
  path : Option Text := none
deriving DecidableEq, Repr

/-- Why a command line makes no sense. -/
inductive UsageError
  | notPositive (flag : Text)
  | unknownOption (word : Text)
  | unknownCommand (word : Text)
  | tooManyArguments
  | missingCommand
deriving DecidableEq, Repr

/-- The message of a usage error. -/
def UsageError.message : UsageError → Text
  | .notPositive flag => flag ++ " expects a positive integer"
  | .unknownOption word => "Unknown option: " ++ word
  | .unknownCommand word => "Unknown command: " ++ word
  | .tooManyArguments => "Too many arguments."
  | .missingCommand => "Missing command."

namespace Options

/-- The positive integer that a word spells in decimal. -/
def count? (word : Text) : Option Nat := (Decimal.toNat? word).filter (· ≠ 0)

/-- Takes a word that is neither an option nor the value of one. -/
def takeWord (options : Options) (word : Text) : Except UsageError Options :=
  match options.command, options.path with
  | none, _ =>
    match Verb.ofName? word with
    | some verb => .ok { options with command := some verb }
    | none => .error (.unknownCommand word)
  | some _, none => .ok { options with path := some word }
  | some _, some _ => .error .tooManyArguments

/-- Takes the words of a command line from left to right. -/
def take (options : Options) : List Text → Except UsageError Options
  | [] => .ok options
  | word :: words =>
    if word = "--help" ∨ word = "-h" then take { options with help := true } words
    else if word = "--version" ∨ word = "-v" then take { options with version := true } words
    else if word = "--verbose" ∨ word = "-V" then take { options with verbose := true } words
    else if word = "--max-iterations" ∨ word = "-n" then
      match words with
      | [] => .error (.notPositive word)
      | value :: words =>
        match count? value with
        | none => .error (.notPositive word)
        | some n => take { options with budget := Number.ofNat n } words
    else if word.head? = some Decimal.minus then .error (.unknownOption word)
    else do
      let options ← options.takeWord word
      take options words

/-- The options that the words of a command line ask for. -/
def ofArgs (args : List Text) : Except UsageError Options := take {} args

end Options

end Lambda94.CommandLine
