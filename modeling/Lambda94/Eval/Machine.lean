import Lambda94.Eval.Limits
import Lambda94.Eval.Scalar
import Std.Data.TreeMap

/-!
# The call-by-name machine

Arguments are bound unevaluated, side by side, under the binders of their functions.  Application
is lazy in its argument; the other binary operators and the condition of a conditional are strict
and start a loop of their own, which steps an expression until it reaches its target.  A unary
operator steps its operand in place.

Each step of a loop is paid for out of one budget, which the outermost loop fills.  A loop carries
a bound on its steps that is never smaller than the budget, so that the bound is reached only with
the budget used up.
-/

namespace Lambda94

/-- The state of an evaluator. -/
structure Machine where
  /-- The unevaluated arguments, by binder. -/
  bindings : Std.TreeMap Int Expr := {}
  /-- The steps left in the budget. -/
  remaining : Nat := 0
  /-- The loops in progress. -/
  loops : Nat := 0
  /-- The steps taken so far, steps within steps included. -/
  steps : Nat := 0
  /-- The arguments bound so far. -/
  betas : Nat := 0
  /-- The expressions that outermost loops stepped to, latest first. -/
  trace : List Expr := []

/-- Evaluation keeps its state when it fails. -/
abbrev EvalM := EStateM EvalError Machine

/-- An expression whose outermost shape is visible. -/
inductive HeadNormal
  | lit (value : Value)
  | lam (binder : Int) (body : Expr)
  | var (id : Int)
deriving DecidableEq, Repr

/-- The head normal form that an expression is, if it is one. -/
def Expr.headNormal? : Expr → Option HeadNormal
  | .lit value => some (.lit value)
  | .lam binder body => some (.lam binder body)
  | .var id => some (.var id)
  | _ => none

/-- A head normal form as an expression. -/
def HeadNormal.toExpr : HeadNormal → Expr
  | .lit value => .lit value
  | .lam binder body => .lam binder body
  | .var id => .var id

/-- The value that an expression is, if it is one. -/
def Expr.value? : Expr → Option Value
  | .lit value => some value
  | _ => none

namespace Target

/-- What a loop with this target returns. -/
abbrev Result : Target → Type
  | .value => Value
  | .headNormal => HeadNormal

/-- The result that a loop ends with at an expression, if it ends there. -/
def reach? : (target : Target) → Expr → Option target.Result
  | .value, expr => expr.value?
  | .headNormal, expr => expr.headNormal?

end Target

namespace EvalM

/-- Counts a step. -/
def countStep : EvalM Unit := modify fun m => { m with steps := m.steps + 1 }

/-- The argument that a variable stands for. -/
def lookup (id : Int) : EvalM Expr := do
  match (← get).bindings[id]? with
  | some arg => return arg
  | none => throw (.unboundVariable id)

/-- Binds an argument, in place of an earlier one of the same binder. -/
def bindArg (binder : Int) (arg : Expr) : EvalM Unit :=
  modify fun m => { m with bindings := m.bindings.insert binder arg, betas := m.betas + 1 }

/-- Pays for a step of a loop. -/
def spend (limits : Limits) (target : Target) : EvalM Unit := do
  let m ← get
  if m.remaining = 0 then throw (.outOfSteps target limits.iterations)
  else set { m with remaining := m.remaining - 1 }

/-- Records an expression that an outermost loop stepped to. -/
def record (expr : Expr) : EvalM Unit :=
  modify fun m => if m.loops = 1 then { m with trace := expr :: m.trace } else m

/-- The result of a loop, with the loop no longer in progress. -/
def leaveLoop {α : Type} :
    EStateM.Result EvalError Machine α → EStateM.Result EvalError Machine α
  | .ok a m => .ok a { m with loops := m.loops - 1 }
  | .error error m => .error error { m with loops := m.loops - 1 }

/-- Runs a loop: an outermost one with a full budget, an inner one if it is not nested too deep. -/
def inLoop {α : Type} (limits : Limits) (loop : EvalM α) : EvalM α := fun m =>
  if m.loops = 0 then leaveLoop (loop { m with remaining := limits.iterations, loops := 1 })
  else if limits.depth ≤ m.loops then .error (.tooDeep limits.depth) m
  else if limits.frames ≤ m.loops then .error (.stackExhausted limits.depth) m
  else leaveLoop (loop { m with loops := m.loops + 1 })

end EvalM

open EvalM

/-- Takes one step; `run` is how the step runs the loops that it starts. -/
def Expr.stepWith (run : (target : Target) → Expr → EvalM target.Result) : Expr → EvalM Expr
  | .lit value => do
    countStep
    return .lit value
  | .lam binder body => do
    countStep
    return .lam binder body
  | .var id => do
    countStep
    lookup id
  | .unary op (.lit value) => do
    countStep
    return .lit (← ofExcept (op.eval value))
  | .unary op operand => do
    countStep
    return .unary op (← operand.stepWith run)
  | .binary (.strict op) left right => do
    countStep
    let a ← run .value left
    let b ← run .value right
    return .lit (← ofExcept (op.eval a b))
  | .binary .apply fn arg => do
    countStep
    match ← run .headNormal fn with
    | .lam binder body =>
      bindArg binder arg
      return body
    | .lit value => throw (.applyNonFunction value)
    | .var id => return .app (.var id) arg
  | .cond condition thenBranch elseBranch => do
    countStep
    match ← run .value condition with
    | .bool true => return thenBranch
    | .bool false => return elseBranch
    | value => throw (.nonBooleanCondition value)

/-- Steps an expression, at least once, until it reaches the target. -/
def iterate (limits : Limits) : Nat → (target : Target) → Expr → EvalM target.Result
  | 0, target, _ => throw (.outOfSteps target limits.iterations)
  | bound + 1, target, expr => do
    spend limits target
    let next ← expr.stepWith fun target expr => inLoop limits (iterate limits bound target expr)
    record next
    match target.reach? next with
    | some result => return result
    | none => iterate limits bound target next

/-- Runs a loop from an expression to a target. -/
def runLoop (limits : Limits) (target : Target) (expr : Expr) : EvalM target.Result :=
  inLoop limits (iterate limits limits.iterations target expr)

namespace Expr

/-- Takes one step; each loop that the step starts is an outermost one. -/
def step (limits : Limits) (expr : Expr) : EvalM Expr := expr.stepWith (runLoop limits)

/-- Steps an expression until its outermost shape is visible. -/
def toHeadNormal (limits : Limits) (expr : Expr) : EvalM HeadNormal :=
  runLoop limits .headNormal expr

/-- Steps an expression until it is a value. -/
def evaluate (limits : Limits) (expr : Expr) : EvalM Value := runLoop limits .value expr

end Expr

end Lambda94
