import Lambda94.Eval.Session
import Lambda94.Proofs.MachineRun

/-!
# Machines driven from outside

From outside, a machine can be asked for one step, for a head normal form or for a value.  An
expression may be driven by hand, each move on what the one before has returned (`drive`), and one
machine may be asked for many things, some of which fail (`afterCalls`).  `Driven` holds of the
machines that a program can be brought to, with all expressions that were returned on the way; a
call may go on from any of them.  The steps that a session takes are moves too:
`Session.stepTimes_of_drive`.
-/

namespace Lambda94

open EvalM

/-- What a machine can be asked to do with an expression. -/
inductive Move
  | step
  | reduce
  | evaluate
deriving DecidableEq, Repr

namespace Move

/-- The task of a move. -/
def task : Move → Expr → Task
  | .step, expr => .step expr
  | .reduce, expr => .loop .headNormal expr
  | .evaluate, expr => .loop .value expr

/-- Makes a move; what it returns, as an expression. -/
def run (limits : Limits) : Move → Expr → EvalM Expr
  | .step, expr => expr.step limits
  | .reduce, expr => do return (← expr.toHeadNormal limits).toExpr
  | .evaluate, expr => do return .lit (← expr.evaluate limits)

end Move

/-- Makes moves, each on what the one before has returned; all that was returned, in order. -/
def drive (limits : Limits) : List Move → Expr → EvalM (List Expr)
  | [], _ => return []
  | move :: moves, expr => do
    let next ← move.run limits expr
    let rest ← drive limits moves next
    return next :: rest

/-- The machine after calls from outside, each of which may return or fail. -/
def afterCalls (limits : Limits) (m : Machine) (calls : List (Move × Expr)) : Machine :=
  calls.foldl (fun m call => after ((call.1.run limits call.2).run m)) m

/-- What a call has returned, if it has. -/
def returned : EStateM.Result EvalError Machine Expr → List Expr
  | .ok expr _ => [expr]
  | .error .. => []

/-- A fresh machine can be brought to `m` by calls that start from the program and go on from what
they returned; `held` is the program and all that was returned. -/
inductive Driven (limits : Limits) (program : Expr) : Machine → List Expr → Prop
  | fresh : Driven limits program {} [program]
  | call {m : Machine} {held : List Expr} {expr : Expr} (before : Driven limits program m held)
    (move : Move) (mem : expr ∈ held) :
    Driven limits program (after ((move.run limits expr).run m))
      (returned ((move.run limits expr).run m) ++ held)

/-! ### What a move does -/

theorem EvalM.Follows.map {α : Type} {task : Task} {toExpr : α → Expr} {x : EvalM α}
    (h : Follows task toExpr x) : Follows task id (do return toExpr (← x)) := by
  intro pending m
  obtain ⟨log, hrun, hbetas⟩ := h pending m
  refine ⟨log, ?_⟩
  cases hx : x.run m with
  | ok a m' =>
    rw [hx] at hrun hbetas
    rw [run_bind_of_ok hx]
    exact ⟨hrun, hbetas⟩
  | error error m' =>
    rw [hx] at hrun hbetas
    rw [run_bind_of_error hx]
    exact ⟨hrun, hbetas⟩

/-- A move runs as its task. -/
theorem Move.follows_run (limits : Limits) (move : Move) (expr : Expr) :
    Follows (move.task expr) id (move.run limits expr) := by
  cases move with
  | step => exact follows_stepWith (follows_runLoop limits) expr
  | reduce => exact (follows_runLoop limits .headNormal expr).map
  | evaluate => exact (follows_runLoop limits .value expr).map

theorem run_drive_cons {limits : Limits} {move : Move} {moves : List Move} {expr next : Expr}
    {rest : List Expr} {m m₁ m₂ : Machine} (first : (move.run limits expr).run m = .ok next m₁)
    (others : (drive limits moves next).run m₁ = .ok rest m₂) :
    (drive limits (move :: moves) expr).run m = .ok (next :: rest) m₂ := by
  rw [drive, run_bind_of_ok first, run_bind_of_ok others]
  rfl

/-- A session that takes a number of steps drives its machine by so many moves. -/
theorem Session.stepTimes_of_drive {limits : Limits} {times : Nat} {expr : Expr}
    {path : List Expr} {m m' : Machine}
    (h : (drive limits (List.replicate times .step) expr).run m = .ok path m') :
    Session.stepTimes ⟨limits, m, some expr⟩ expr times =
      (.expr (path.getLastD expr), ⟨limits, m', some (path.getLastD expr)⟩) := by
  induction times generalizing expr path m with
  | zero =>
    cases h
    rfl
  | succ times ih =>
    obtain ⟨next, m₁, hstep, hothers⟩ := run_bind_eq_ok_iff.1 h
    obtain ⟨rest, m₂, hrest, hpath⟩ := run_bind_eq_ok_iff.1 hothers
    cases hpath
    have hfirst : (expr.step limits).run m = .ok next m₁ := hstep
    rw [Session.stepTimes, hfirst, List.getLastD_cons]
    exact ih hrest

end Lambda94
