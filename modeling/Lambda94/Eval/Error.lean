import Lambda94.Expr.Pretty
import Lambda94.Operator
import Lambda94.Value
import Lambda94.Wire.CodecError

/-!
# Evaluation errors

Everything that can end an evaluation without a result.  Running out of steps, of nesting levels
or of stack is reported as non-termination: it is about the limits of a run and says nothing of
the program.
-/

namespace Lambda94

/-- What a loop of steps is to reach. -/
inductive Target
  | value
  | headNormal
deriving DecidableEq, Repr

/-- The name of a target in messages. -/
def Target.name : Target → String
  | .value => "a value"
  | .headNormal => "weak head normal form"

/-- An operator as errors name it. -/
inductive Operator
  | unary (op : UnaryOp)
  | binary (op : BinaryOp)
deriving DecidableEq, Repr

/-- The name of an operator in messages. -/
def Operator.label : Operator → String
  | .unary op => op.label
  | .binary op => op.label

/-- Why an evaluation ended without a result. -/
inductive EvalError
  | unboundVariable (id : Int)
  | typeMismatch (operator : Operator) (expected : Kind) (actual : Value)
  | divisionByZero (op : StrictOp)
  /-- The count of characters to take or drop is negative or exceeds the length. -/
  | countOutOfRange (op : StrictOp) (count : Int) (length : Nat)
  | applyNonFunction (head : Value)
  | nonBooleanCondition (condition : Value)
  | codec (error : CodecError)
  /-- A loop asked for a step beyond the budget. -/
  | outOfSteps (target : Target) (limit : Nat)
  /-- A loop would have been nested deeper than allowed. -/
  | tooDeep (limit : Nat)
  /-- Loops were nested deeper than the stack allows; the limit is that of the nesting. -/
  | stackExhausted (limit : Nat)
deriving DecidableEq, Repr

namespace EvalError

/-- The name of the kind of an evaluation error. -/
def kind : EvalError → String
  | .unboundVariable _ => "UnboundVariable"
  | .typeMismatch .. => "TypeMismatch"
  | .divisionByZero _ => "DivisionByZero"
  | .countOutOfRange .. => "IndexOutOfRange"
  | .applyNonFunction _ => "ApplyNonFunction"
  | .nonBooleanCondition _ => "NonBooleanCondition"
  | .codec error => error.kind
  | .outOfSteps .. | .tooDeep _ | .stackExhausted _ => "NonTermination"

/-- The message of an evaluation error. -/
def message : EvalError → Text
  | .unboundVariable id => "variable " ++ variableName id ++ " is not bound"
  | .typeMismatch operator expected actual =>
    operator.label ++ " expected " ++ expected.name ++ " but received " ++ actual.kind.name
  | .divisionByZero op => op.label ++ " by zero"
  | .countOutOfRange op count length =>
    op.label ++ " count " ++ Decimal.ofInt count ++ " is outside [0, " ++ Decimal.ofInt length ++
      "]"
  | .applyNonFunction head => "cannot apply " ++ head.kind.name ++ " value"
  | .nonBooleanCondition condition =>
    "if condition evaluated to " ++ condition.kind.name ++ ", expected boolean"
  | .codec error => error.message
  | .outOfSteps target limit =>
    "evaluation did not reach " ++ target.name ++ " within " ++ Decimal.ofInt limit ++ " steps"
  | .tooDeep limit => "evaluation nested deeper than " ++ Decimal.ofInt limit ++ " levels"
  | .stackExhausted _ => "evaluation exhausted the call stack"

/-- The error is about the limits of the run. -/
def isNonTermination : EvalError → Bool
  | .outOfSteps .. | .tooDeep _ | .stackExhausted _ => true
  | _ => false

end EvalError

/-- The facts that an evaluation error reports besides its message. -/
structure ErrorContext where
  operator : Option Operator := none
  expected : Option Kind := none
  actual : Option Kind := none
  /-- The offending value. -/
  value : Option Value := none
  /-- The variable without a binding. -/
  id : Option Int := none
  /-- The limit that was reached. -/
  limit : Option Nat := none
deriving DecidableEq, Repr

/-- The facts that an evaluation error reports; a codec error is reported as such. -/
def EvalError.context : EvalError → ErrorContext
  | .unboundVariable id => { id := some id }
  | .typeMismatch operator expected actual =>
    { operator := some operator, expected := some expected, actual := some actual.kind,
      value := some actual }
  | .divisionByZero op => { operator := some (.binary (.strict op)), value := some (.int 0) }
  | .countOutOfRange op count _ =>
    { operator := some (.binary (.strict op)), value := some (.int count) }
  | .applyNonFunction head =>
    { operator := some (.binary .apply), actual := some head.kind, value := some head }
  | .nonBooleanCondition condition =>
    { expected := some .boolean, actual := some condition.kind, value := some condition }
  | .codec _ => {}
  | .outOfSteps _ limit | .tooDeep limit | .stackExhausted limit => { limit := some limit }

end Lambda94
