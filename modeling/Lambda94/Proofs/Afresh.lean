import Lambda94.Proofs.Moves
import Lambda94.Proofs.Simulation

/-!
# A call does not notice earlier calls

A machine that was called before has bindings, and besides them only its counts, its trace and the
rest of a budget.  A call adds to the counts and to the trace without looking at them, and it fills
the budget before it spends any of it.  So a call ends as it would on a fresh machine with the same
bindings, whether the calls before it have returned or failed: `resumes_afterCalls`.

The two machines are compared at equal numbers of loops in progress (`Machine.Resumes`).  Inside a
loop they have the same budget; outside all loops nothing is said about it.  Other than in a
simulation, the limits end both calls or neither (`EvalM.Respects`).
-/

namespace Lambda94

open EvalM

/-! ### One computation on two machines -/

namespace EvalM

variable {α β : Type} {R R' : Machine → Machine → Prop}

/-- Both end with the same result or the same error, on related machines. -/
inductive EndAlike (R : Machine → Machine → Prop) :
    EStateM.Result EvalError Machine α → EStateM.Result EvalError Machine α → Prop
  | ok (a : α) {m m' : Machine} (machines : R m m') : EndAlike R (.ok a m) (.ok a m')
  | error (error : EvalError) {m m' : Machine} (machines : R m m') :
    EndAlike R (.error error m) (.error error m')

theorem EndAlike.after {r r' : EStateM.Result EvalError Machine α} (h : EndAlike R r r') :
    R (after r) (after r') := by
  cases h with
  | ok a machines => exact machines
  | error error machines => exact machines

/-- On related machines the computation ends alike. -/
def Respects (R : Machine → Machine → Prop) (x : EvalM α) : Prop :=
  ∀ m m', R m m' → EndAlike R (x.run m) (x.run m')

/-- To end alike is for one computation to end together with itself. -/
theorem respects_iff {x : EvalM α} : Respects R x ↔ Together R Eq x x := by
  constructor
  · intro h m m' hm
    have hx := h m m' hm
    generalize x.run m = r at hx ⊢
    generalize x.run m' = r' at hx ⊢
    cases hx with
    | ok a machines => exact .ok rfl machines
    | error error machines => exact .error error machines
  · intro h m m' hm
    have hx := h m m' hm
    generalize x.run m = r at hx ⊢
    generalize x.run m' = r' at hx ⊢
    cases hx with
    | ok results machines => exact results ▸ .ok _ machines
    | error error machines => exact .error error machines

theorem Respects.pure (a : α) : Respects R (Pure.pure a) := fun _ _ hm => .ok a hm

theorem Respects.throw (error : EvalError) : Respects R (MonadExcept.throw error : EvalM α) :=
  fun _ _ hm => .error error hm

theorem Respects.bind {x : EvalM α} {f : α → EvalM β} (h : Respects R x)
    (next : ∀ a, Respects R (f a)) : Respects R (x >>= f) := by
  refine respects_iff.2 ((respects_iff.1 h).bind ?_)
  rintro a _ rfl
  exact respects_iff.1 (next a)

theorem Respects.counting (hR : Couples Eq R) {x : EvalM α} (h : Respects R x) :
    Respects R (do EvalM.countStep; x) :=
  fun _ _ hm => h _ _ (hR.countStep hm)

theorem Respects.ofExcept (x : Except EvalError α) :
    Respects R (MonadExcept.ofExcept x : EvalM α) := by
  cases x with
  | ok a => exact .pure a
  | error error => exact .throw error

theorem Respects.lookup (hR : Couples Eq R) (id : Int) : Respects R (EvalM.lookup id) := by
  intro m m' hm
  rw [run_lookup, run_lookup]
  have hargs := hR.arguments hm id
  generalize m.bindings[id]? = arg at hargs
  generalize m'.bindings[id]? = arg' at hargs
  cases hargs with
  | none => exact .error _ hm
  | @some arg _ h => exact h ▸ .ok arg hm

/-- A loop that may not be entered on one machine may not be on the other. -/
theorem Respects.inLoop {limits : Limits} (hR : Encloses limits limits R R') {x : EvalM α}
    (h : Respects R' x) : Respects R (EvalM.inLoop limits x) :=
  respects_iff.2 ((respects_iff.1 h).inLoop hR)

/-- A step ends alike if the loops that it starts do. -/
theorem respects_stepWith (hR : Couples Eq R)
    {run : (target : Target) → Expr → EvalM target.Result}
    (hrun : ∀ target expr, Respects R (run target expr)) (expr : Expr) :
    Respects R (expr.stepWith run) := by
  induction expr with
  | lit value => exact .counting hR (.pure _)
  | lam binder body => exact .counting hR (.pure _)
  | var id => exact .counting hR (.lookup hR id)
  | unary op operand ih =>
    by_cases hlit : ∃ value, operand = .lit value
    · obtain ⟨value, rfl⟩ := hlit
      exact .counting hR ((Respects.ofExcept _).bind fun result => .pure _)
    · rw [Expr.stepWith_unary op fun value h => hlit ⟨value, h⟩]
      exact .counting hR (ih.bind fun next => .pure _)
  | binary op left right =>
    cases op with
    | strict op =>
      refine .counting hR ((hrun .value left).bind fun a => ?_)
      exact (hrun .value right).bind fun b => (Respects.ofExcept _).bind fun result => .pure _
    | apply =>
      refine .counting hR ((hrun .headNormal left).bind fun head => ?_)
      cases head with
      | lit value => exact .throw _
      | lam binder body => exact fun _ _ hm => .ok body (hR.bindArg hm binder rfl)
      | var id => exact .pure _
  | cond condition thenBranch elseBranch =>
    refine .counting hR ((hrun .value condition).bind fun value => ?_)
    cases value with
    | bool b => cases b <;> exact .pure _
    | str s => exact .throw _
    | int n => exact .throw _

end EvalM

/-! ### A machine with a past -/

/-- After a past, the second machine has gone through what the first has; on both the same number of
loops is in progress. -/
structure Machine.Resumes (past : Machine) (loops : Nat) (fresh m : Machine) : Prop where
  bindings : m.bindings = fresh.bindings
  /-- What earlier calls have left of the budget is of no account. -/
  remaining : loops ≠ 0 → m.remaining = fresh.remaining
  loops_fresh : fresh.loops = loops
  loops : m.loops = loops
  steps : m.steps = past.steps + fresh.steps
  betas : m.betas = past.betas + fresh.betas
  trace : m.trace = fresh.trace ++ past.trace

variable {past : Machine}

theorem couples_resumes (past : Machine) (loops : Nat) : Couples Eq (past.Resumes loops) where
  arguments h := arguments_of_bindings_eq h.bindings
  countStep h := { h with steps := by rw [h.steps, Nat.add_assoc] }
  bindArg h binder arg _ args :=
    { h with
      bindings := by rw [h.bindings, args]
      betas := by rw [h.betas, Nat.add_assoc] }

theorem encloses_resumes (limits : Limits) (past : Machine) (loops : Nat) :
    Encloses limits limits (past.Resumes loops) (past.Resumes (loops + 1)) where
  depth := Nat.le_refl _
  frames := Nat.le_refl _
  loops h := h.loops.trans h.loops_fresh.symm
  outermost h idle := by
    have hloops : 1 = loops + 1 := by rw [← h.loops_fresh, idle]
    exact { h with remaining := fun _ => rfl, loops_fresh := hloops, loops := hloops }
  inner h busy :=
    { h with
      remaining := fun _ => h.remaining fun h' => busy (h.loops_fresh.trans h')
      loops_fresh := congrArg (· + 1) h.loops_fresh
      loops := congrArg (· + 1) h.loops }
  leave h :=
    { h with
      remaining := fun _ => h.remaining (Nat.succ_ne_zero loops)
      loops_fresh := congrArg (· - 1) h.loops_fresh
      loops := congrArg (· - 1) h.loops }

theorem respects_spend (limits : Limits) (target : Target) (loops : Nat) :
    Respects (past.Resumes (loops + 1)) (spend limits target) := by
  intro m m' hm
  have hremaining := hm.remaining (Nat.succ_ne_zero loops)
  rw [run_spend, run_spend, hremaining]
  split_ifs
  · exact .error _ hm
  · exact .ok () { hm with remaining := fun _ => rfl }

theorem respects_record (expr : Expr) (loops : Nat) :
    Respects (past.Resumes loops) (record expr) := by
  intro m m' hm
  rw [run_record, run_record]
  by_cases houtermost : loops = 1
  · rw [if_pos (hm.loops_fresh.trans houtermost), if_pos (hm.loops.trans houtermost)]
    exact .ok () { hm with trace := congrArg (expr :: ·) hm.trace }
  · rw [if_neg (hm.loops_fresh ▸ houtermost), if_neg (hm.loops ▸ houtermost)]
    exact .ok () hm

theorem respects_iterate (limits : Limits) (bound loops : Nat) (target : Target) (expr : Expr) :
    Respects (past.Resumes (loops + 1)) (iterate limits bound target expr) := by
  induction bound generalizing loops target expr with
  | zero => exact .throw _
  | succ bound ih =>
    have hstep := respects_stepWith (couples_resumes past (loops + 1))
      (fun target expr => (ih (loops + 1) target expr).inLoop (encloses_resumes limits past _)) expr
    rw [iterate]
    refine (respects_spend limits target loops).bind fun _ => hstep.bind fun next => ?_
    refine (respects_record next (loops + 1)).bind fun _ => ?_
    cases target.reach? next with
    | some result => exact .pure result
    | none => exact ih loops target next

theorem respects_runLoop (limits : Limits) (loops : Nat) (target : Target) (expr : Expr) :
    Respects (past.Resumes loops) (runLoop limits target expr) :=
  (respects_iterate limits limits.iterations loops target expr).inLoop
    (encloses_resumes limits past loops)

theorem Move.respects_run (limits : Limits) (move : Move) (loops : Nat) (expr : Expr) :
    Respects (past.Resumes loops) (move.run limits expr) := by
  cases move with
  | step =>
    exact respects_stepWith (couples_resumes past loops) (respects_runLoop limits loops) expr
  | reduce => exact (respects_runLoop limits loops .headNormal expr).bind fun _ => .pure _
  | evaluate => exact (respects_runLoop limits loops .value expr).bind fun _ => .pure _

/-! ### Main result -/

theorem Machine.resumes_of_idle {m : Machine} (idle : m.loops = 0) :
    m.Resumes 0 { bindings := m.bindings } m where
  bindings := rfl
  remaining h := absurd rfl h
  loops_fresh := rfl
  loops := idle
  steps := rfl
  betas := rfl
  trace := rfl

theorem loops_afterCalls {m : Machine} (idle : m.loops = 0) (limits : Limits)
    (calls : List (Move × Expr)) : (afterCalls limits m calls).loops = 0 := by
  induction calls generalizing m with
  | nil => exact idle
  | cons call calls ih =>
    exact ih (call.1.respects_run limits 0 call.2 _ _ (Machine.resumes_of_idle idle)).after.loops

/-- After any calls, of which each may have failed, on a machine that was fresh before them: no loop
is in progress, and the next call ends with the result or the error with which it ends on a fresh
machine that has the same bindings; what it adds to the counts and to the trace is the same too. -/
theorem resumes_afterCalls (limits : Limits) (calls : List (Move × Expr)) (move : Move)
    (expr : Expr) :
    (afterCalls limits {} calls).loops = 0 ∧
      EndAlike ((afterCalls limits {} calls).Resumes 0)
        ((move.run limits expr).run { bindings := (afterCalls limits {} calls).bindings })
        ((move.run limits expr).run (afterCalls limits {} calls)) := by
  have hidle : (afterCalls limits {} calls).loops = 0 := loops_afterCalls rfl limits calls
  exact ⟨hidle, move.respects_run limits 0 expr _ _ (Machine.resumes_of_idle hidle)⟩

end Lambda94
