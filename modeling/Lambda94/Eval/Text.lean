import Lambda94.Eval.Machine
import Lambda94.Program

/-!
# Evaluating program text

Reads a program and evaluates it on a fresh machine.
-/

namespace Lambda94

/-- Why the text of a program has no value. -/
inductive RunError
  | read (error : ReadError)
  | eval (error : EvalError)
deriving DecidableEq, Repr

/-- The value of a program, evaluated on a fresh machine. -/
def evaluateText (limits : Limits) (text : Text) : Except RunError Value :=
  match Expr.ofText text with
  | .error error => .error (.read error)
  | .ok expr =>
    match (expr.evaluate limits).run {} with
    | .ok value _ => .ok value
    | .error error _ => .error (.eval error)

theorem evaluateText_of_ofText {text : Text} {expr : Expr} (read : Expr.ofText text = .ok expr)
    (limits : Limits) :
    evaluateText limits text =
      match (expr.evaluate limits).run {} with
      | .ok value _ => .ok value
      | .error error _ => .error (.eval error) := by
  rw [evaluateText, read]

end Lambda94
