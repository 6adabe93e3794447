import Lambda94.Eval.Machine

/-!
# Sessions

A session drives one machine by hand: it loads an expression, steps it, and runs it to a head
normal form or a value.  Bindings and counts live through the session, also when another expression
is loaded; the trace is that of the latest command.
-/

namespace Lambda94

/-- A machine together with the expression in progress. -/
structure Session where
  limits : Limits
  machine : Machine := {}
  /-- The expression in progress, once one is loaded. -/
  current : Option Expr := none

/-- What a session is asked to do. -/
inductive Command
  | load (expr : Expr)
  /-- Takes a number of steps, each loop in a step being an outermost one. -/
  | step (times : Nat)
  /-- Steps the expression in progress to a head normal form. -/
  | reduce
  /-- Evaluates the expression in progress and leaves it as it is. -/
  | evaluate
deriving Repr

/-- What a command ends with. -/
inductive Reply
  /-- The expression in progress after the command. -/
  | expr (expr : Expr)
  | value (value : Value)
  | error (error : EvalError)
  /-- No expression is loaded. -/
  | idle
deriving DecidableEq, Repr

namespace Session

/-- Takes up to `times` steps, and stops at the first one that fails. -/
def stepTimes (session : Session) (expr : Expr) : Nat → Reply × Session
  | 0 => (.expr expr, session)
  | times + 1 =>
    match (expr.step session.limits).run session.machine with
    | .ok next machine => stepTimes { session with machine, current := some next } next times
    | .error error machine => (.error error, { session with machine })

/-- Does what a command asks for. -/
def perform (session : Session) (command : Command) : Reply × Session :=
  let session := { session with machine := { session.machine with trace := [] } }
  match command, session.current with
  | .load expr, _ => (.expr expr, { session with current := some expr })
  | _, none => (.idle, session)
  | .step times, some expr => session.stepTimes expr times
  | .reduce, some expr =>
    match (expr.toHeadNormal session.limits).run session.machine with
    | .ok head machine => (.expr head.toExpr, { session with machine, current := some head.toExpr })
    | .error error machine => (.error error, { session with machine })
  | .evaluate, some expr =>
    match (expr.evaluate session.limits).run session.machine with
    | .ok value machine => (.value value, { session with machine })
    | .error error machine => (.error error, { session with machine })

end Session

end Lambda94
