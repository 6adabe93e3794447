import Lambda94.CommandLine.Options
import Lambda94.Eval.Error
import Lambda94.Expr.Json
import Lambda94.Generate
import Lambda94.Program

/-!
# Failures

Every way in which a request to the library can fail.
-/

namespace Lambda94

/-- Why a request failed. -/
inductive Failure
  | read (error : ReadError)
  | codec (error : CodecError)
  | eval (error : EvalError)
  | schema (error : SchemaError)
  | limit (error : LimitError)
  | pick (error : PickError)
  | usage (error : CommandLine.UsageError)
deriving DecidableEq, Repr

/-- The message of a failure. -/
def Failure.message : Failure → Text
  | .read (.parse error) => error.message
  | .read (.codec error) => error.message
  | .codec error => error.message
  | .eval error => error.message
  | .schema error => error.message
  | .limit error => error.message
  | .pick error => error.message
  | .usage error => error.message

/-- The name of the class of a failure. -/
def Failure.name : Failure → String
  | .read (.parse _) => "ParseError"
  | .read (.codec _) | .codec _ | .eval (.codec _) => "CodecError"
  | .eval _ => "EvaluationError"
  | .usage _ => "UsageError"
  | .schema .unquotable => "TypeError"
  | .schema _ | .limit _ | .pick _ => "Error"

end Lambda94
