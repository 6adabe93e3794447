import Lambda94.Proofs.ByHand

/-!
# Unary operators in a row

A loop steps the operand of a unary operator in place, instead of starting another loop for it, as
it does for the operands of the other strict operators.  That makes no difference: with any number
of unary operators in front, an expression evaluates to what the operators make of its value, after
one more step for each of them, and fails as the expression does: `evaluate_under`.

A step goes through the operators to the expression (`Expr.run_stepWith_under`), so until that is a
value the two loops keep step, on machines that differ in the budget and in the counted steps
(`Machine.Reserves`).  From then on the steps in reserve apply the operators, from the inside out
(`EvalM.endsWith_arrive_under`).
-/

namespace Lambda94

open EvalM

/-! ### Operators in front -/

/-- The expression with unary operators in front of it, the first of which is the innermost one. -/
def Expr.under (ops : List UnaryOp) (expr : Expr) : Expr :=
  ops.foldl (fun operand op => .unary op operand) expr

/-- What unary operators make of a value, one after the other. -/
def UnaryOp.evalAll (ops : List UnaryOp) (value : Value) : Except EvalError Value :=
  ops.foldlM (fun operand op => op.eval operand) value

@[simp] theorem UnaryOp.evalAll_nil (value : Value) : evalAll [] value = .ok value := rfl

@[simp] theorem UnaryOp.evalAll_cons (op : UnaryOp) (ops : List UnaryOp) (value : Value) :
    evalAll (op :: ops) value = op.eval value >>= evalAll ops := rfl

namespace Expr

@[simp] theorem under_nil (expr : Expr) : expr.under [] = expr := rfl

@[simp] theorem under_cons (op : UnaryOp) (ops : List UnaryOp) (expr : Expr) :
    expr.under (op :: ops) = (Expr.unary op expr).under ops := rfl

theorem unary_ne_lit (op : UnaryOp) (operand : Expr) (value : Value) :
    Expr.unary op operand ≠ .lit value := nofun

theorem under_ne_lit {expr : Expr} (stuck : ∀ value, expr ≠ .lit value) (ops : List UnaryOp)
    (value : Value) : expr.under ops ≠ .lit value := by
  induction ops generalizing expr with
  | nil => exact stuck value
  | cons op ops ih => exact ih (unary_ne_lit op expr)

theorem reach?_under {expr : Expr} (stuck : ∀ value, expr ≠ .lit value) (ops : List UnaryOp) :
    Target.value.reach? (expr.under ops) = none := by
  have hstuck := under_ne_lit stuck ops
  cases h : expr.under ops with
  | lit value => exact absurd h (hstuck value)
  | _ => rfl

/-- A step under unary operators is a step of the expression, and is counted once for each operator
as well. -/
theorem run_stepWith_under {run : (target : Target) → Expr → EvalM target.Result} {expr : Expr}
    (stuck : ∀ value, expr ≠ .lit value) (ops : List UnaryOp) (m : Machine) :
    ((expr.under ops).stepWith run).run m =
      (do return (← expr.stepWith run).under ops : EvalM Expr).run
        { m with steps := m.steps + ops.length } := by
  induction ops generalizing expr with
  | nil =>
    simp only [under_nil, bind_pure]
    rfl
  | cons op ops ih =>
    rw [under_cons, ih (unary_ne_lit op expr), stepWith_unary op stuck]
    simp only [bind_assoc, pure_bind, under_cons]
    rfl

end Expr

/-! ### Machines with steps in reserve -/

/-- The machines have bound the same arguments, and as many of them. -/
structure Machine.BoundAlike (m m' : Machine) : Prop where
  bindings : m'.bindings = m.bindings
  betas : m'.betas = m.betas

/-- The machines have bound the same arguments, and on both of them `loops` loops are in progress;
if these are any, then the second machine has `reserve` steps more in its budget. -/
structure Machine.Reserves (reserve loops : Nat) (m m' : Machine) : Prop
    extends m.BoundAlike m' where
  loops_first : m.loops = loops
  loops_second : m'.loops = loops
  remaining : loops ≠ 0 → m.remaining + reserve ≤ m'.remaining

/-- Where no loop is in progress, the next one will fill the budget. -/
theorem Machine.reserves_of_idle {m : Machine} (idle : m.loops = 0) (reserve : Nat) :
    m.Reserves reserve m.loops m :=
  ⟨⟨rfl, rfl⟩, rfl, rfl, fun busy => absurd idle busy⟩

/-- The limits with more steps. -/
def Limits.plus (limits : Limits) (steps : Nat) : Limits :=
  { limits with iterations := limits.iterations + steps }

variable {limits : Limits} {reserve loops : Nat} {m m' : Machine}

theorem couples_reserves (reserve loops : Nat) : Couples Eq (Machine.Reserves reserve loops) where
  arguments h := arguments_of_bindings_eq h.bindings
  countStep h := { h with }
  bindArg h binder arg _ args :=
    { h with
      bindings := by rw [h.bindings, args]
      betas := congrArg (· + 1) h.betas }

theorem encloses_reserves (limits : Limits) (reserve loops : Nat) :
    Encloses limits (limits.plus reserve) (Machine.Reserves reserve loops)
      (Machine.Reserves reserve (loops + 1)) where
  depth := Nat.le_refl _
  frames := Nat.le_refl _
  loops h := h.loops_second.trans h.loops_first.symm
  outermost h idle := by
    obtain rfl : loops = 0 := h.loops_first.symm.trans idle
    exact ⟨⟨h.bindings, h.betas⟩, rfl, rfl, fun _ => Nat.le_refl _⟩
  inner h busy :=
    ⟨⟨h.bindings, h.betas⟩, congrArg (· + 1) h.loops_first, congrArg (· + 1) h.loops_second,
      fun _ => h.remaining fun idle => busy (h.loops_first.trans idle)⟩
  leave h :=
    ⟨⟨h.bindings, h.betas⟩, congrArg (· - 1) h.loops_first, congrArg (· - 1) h.loops_second,
      fun _ => h.remaining (Nat.succ_ne_zero _)⟩

/-- A step of a loop is paid for on both machines; on the second, more of them may be counted. -/
theorem Machine.Reserves.pay (h : m.Reserves reserve (loops + 1) m') (paid : m.remaining ≠ 0)
    (steps : Nat) :
    m'.remaining ≠ 0 ∧ Reserves reserve (loops + 1) { m with remaining := m.remaining - 1 }
      { m' with remaining := m'.remaining - 1, steps } := by
  have hremaining := h.remaining (Nat.succ_ne_zero loops)
  refine ⟨by omega, { h with remaining := fun _ => ?_ }⟩
  show m.remaining - 1 + reserve ≤ m'.remaining - 1
  omega

theorem Machine.Reserves.withTrace (h : m.Reserves reserve loops m') (trace trace' : List Expr) :
    Reserves reserve loops { m with trace } { m' with trace := trace' } := { h with }

theorem carries_reserves (limits : Limits) (reserve : Nat) :
    Carries limits (limits.plus reserve) (Machine.Reserves reserve) where
  couples := couples_reserves reserve
  spend loops target := by
    intro m m' hm
    rw [run_spend, run_spend]
    by_cases hspent : m.remaining = 0
    · rw [if_pos hspent]
      exact .limit m rfl _
    · obtain ⟨hfunds, hpaid⟩ := hm.pay hspent m'.steps
      rw [if_neg hspent, if_neg hfunds]
      exact .ok rfl hpaid
  record loops expr := by
    intro m m' hm
    rw [run_record, run_record]
    split_ifs <;> exact .ok rfl (hm.withTrace _ _)
  inLoop loops _ _ _ _ _ h := (encloses_reserves limits reserve loops).inLoop h

/-! ### Operators in front of a literal -/

namespace EvalM

variable {α : Type}

/-- A computation has this outcome, and leaves the arguments that the machine has bound. -/
inductive EndsWith (m : Machine) :
    Except EvalError α → EStateM.Result EvalError Machine α → Prop
  | ok (a : α) {m' : Machine} (machines : m.BoundAlike m') : EndsWith m (.ok a) (.ok a m')
  | error (error : EvalError) {m' : Machine} (machines : m.BoundAlike m') :
    EndsWith m (.error error) (.error error m')

theorem EndsWith.of_boundAlike {x : Except EvalError α} {r : EStateM.Result EvalError Machine α}
    (h : EndsWith m' x r) (machines : m.BoundAlike m') : EndsWith m x r := by
  cases h with
  | ok a after => exact .ok a ⟨after.1.trans machines.1, after.2.trans machines.2⟩
  | error error after => exact .error error ⟨after.1.trans machines.1, after.2.trans machines.2⟩

theorem EndsWith.leaveLoop {x : Except EvalError α} {r : EStateM.Result EvalError Machine α}
    (h : EndsWith m x r) : EndsWith { m with loops := m.loops - 1 } x (EvalM.leaveLoop r) := by
  cases h with
  | ok a machines => exact .ok a ⟨machines.1, machines.2⟩
  | error error machines => exact .error error ⟨machines.1, machines.2⟩

/-- The first step applies the innermost operator. -/
theorem endsWith_iterate_unary (limits : Limits) (op : UnaryOp) {ops : List UnaryOp} {bound : Nat}
    (value : Value) (paid : m.remaining ≠ 0)
    (rest : ∀ next m', m'.remaining = m.remaining - 1 →
      EndsWith m' (UnaryOp.evalAll ops next)
        ((arrive limits bound .value ((Expr.lit next).under ops)).run m')) :
    EndsWith m (UnaryOp.evalAll (op :: ops) value)
      ((iterate limits (bound + 1) .value ((Expr.lit value).under (op :: ops))).run m) := by
  rw [UnaryOp.evalAll_cons, Expr.under_cons, run_iterate_succ limits bound .value _ paid,
    EStateM.run_bind, Expr.run_stepWith_under (Expr.unary_ne_lit op _)]
  unfold Expr.stepWith
  cases heval : op.eval value with
  | error error => exact .error error ⟨rfl, rfl⟩
  | ok next => exact (rest next _ rfl).of_boundAlike ⟨rfl, rfl⟩

/-- From a literal on, the steps that are left apply the operators in front of it. -/
theorem endsWith_arrive_under (limits : Limits) {ops : List UnaryOp} {bound : Nat}
    (enough : ops.length ≤ bound) (funds : ops.length ≤ m.remaining) (value : Value) :
    EndsWith m (UnaryOp.evalAll ops value)
      ((arrive limits bound .value ((Expr.lit value).under ops)).run m) := by
  induction ops generalizing bound value m with
  | nil =>
    obtain ⟨trace, hrun⟩ := run_arrive_of_reach limits bound m (Target.value.reach?_lit value)
    rw [UnaryOp.evalAll_nil, Expr.under_nil, hrun]
    exact .ok value ⟨rfl, rfl⟩
  | cons op ops ih =>
    rw [List.length_cons] at enough funds
    obtain ⟨bound, rfl⟩ := Nat.exists_eq_succ_of_ne_zero (by omega : bound ≠ 0)
    obtain ⟨trace, hrun⟩ := run_arrive_of_not_reach limits (bound + 1) m
      (Expr.reach?_under (Expr.unary_ne_lit op (.lit value)) ops)
    have hpaid : { m with trace }.remaining ≠ 0 := Nat.ne_zero_of_lt funds
    have hends := endsWith_iterate_unary limits op value hpaid fun next m' hremaining =>
      ih (Nat.le_of_succ_le_succ enough) (hremaining ▸ Nat.le_sub_one_of_lt funds) next
    exact hrun ▸ hends.of_boundAlike ⟨rfl, rfl⟩

/-- A loop that starts at a literal with operators in front of it. -/
theorem endsWith_iterate_under (limits : Limits) {ops : List UnaryOp} {bound : Nat}
    (enough : ops.length ≤ bound + 1) (funds : ops.length ≤ m.remaining) (paid : m.remaining ≠ 0)
    (value : Value) :
    EndsWith m (UnaryOp.evalAll ops value)
      ((iterate limits (bound + 1) .value ((Expr.lit value).under ops)).run m) := by
  cases ops with
  | nil =>
    obtain ⟨trace, hrun⟩ := run_iterate_lit limits .value value (Nat.succ_ne_zero bound) paid
    rw [UnaryOp.evalAll_nil, Expr.under_nil, hrun]
    exact .ok value ⟨rfl, rfl⟩
  | cons op ops =>
    rw [List.length_cons] at enough funds
    exact endsWith_iterate_unary limits op value paid fun next m' hremaining =>
      endsWith_arrive_under limits (Nat.le_of_succ_le_succ enough)
        (hremaining ▸ Nat.le_sub_one_of_lt funds) next

/-! ### Operators in front of any expression -/

/-- How a computation ends under operators, with `reserve` steps more: the operators apply to a
value if there are enough steps for them, and an error remains, unless it is about the limits. -/
inductive EndsUnder (ops : List UnaryOp) (reserve : Nat) :
    EStateM.Result EvalError Machine Value → EStateM.Result EvalError Machine Value → Prop
  | value {value : Value} {m : Machine} {r : EStateM.Result EvalError Machine Value}
    (ends : ops.length ≤ reserve → EndsWith m (UnaryOp.evalAll ops value) r) :
    EndsUnder ops reserve (.ok value m) r
  | error {error : EvalError} {m : Machine} {r : EStateM.Result EvalError Machine Value}
    (ends : EndsWith m (.error error) r) : EndsUnder ops reserve (.error error m) r
  | limit {error : EvalError} (m : Machine) (limited : error.isNonTermination = true)
    (r : EStateM.Result EvalError Machine Value) : EndsUnder ops reserve (.error error m) r

theorem EndsUnder.leaveLoop {ops : List UnaryOp} {r r' : EStateM.Result EvalError Machine Value}
    (h : EndsUnder ops reserve r r') :
    EndsUnder ops reserve (EvalM.leaveLoop r) (EvalM.leaveLoop r') := by
  cases h with
  | value ends => exact .value fun enough => (ends enough).leaveLoop
  | error ends => exact .error ends.leaveLoop
  | limit m limited r => exact .limit _ limited _

/-- Where the expression has become a literal, the steps in reserve are left. -/
theorem endsUnder_arrive {ops : List UnaryOp} {bound bound' : Nat} (more : reserve ≤ bound')
    (hiterate : ∀ {m m' : Machine} (expr : Expr), m.Reserves reserve (loops + 1) m' →
      EndsUnder ops reserve ((iterate limits bound .value expr).run m)
        ((iterate (limits.plus reserve) bound' .value (expr.under ops)).run m'))
    (next : Expr) (hm : m.Reserves reserve (loops + 1) m') :
    EndsUnder ops reserve ((arrive limits bound .value next).run m)
      ((arrive (limits.plus reserve) bound' .value (next.under ops)).run m') := by
  have hremaining := hm.remaining (Nat.succ_ne_zero loops)
  cases hreach : Target.value.reach? next with
  | some value =>
    obtain rfl : Expr.lit value = next := Target.toExpr_of_reach? hreach
    obtain ⟨trace, hrun⟩ := run_arrive_of_reach limits bound m hreach
    rw [hrun]
    refine .value fun enough => ?_
    have hends := endsWith_arrive_under (limits.plus reserve)
      (Nat.le_trans enough more) (by omega : ops.length ≤ m'.remaining) value
    exact hends.of_boundAlike ⟨hm.bindings, hm.betas⟩
  | none =>
    have hstuck : ∀ value, next ≠ .lit value := by
      rintro value rfl
      cases hreach
    obtain ⟨trace, hrun⟩ := run_arrive_of_not_reach limits bound m hreach
    obtain ⟨trace', hrun'⟩ :=
      run_arrive_of_not_reach (limits.plus reserve) bound' m' (Expr.reach?_under hstuck ops)
    rw [hrun, hrun']
    exact hiterate next (hm.withTrace trace trace')

/-- Until the expression is a literal, the loop under the operators keeps step with the loop without
them. -/
theorem endsUnder_iterate (limits : Limits) (ops : List UnaryOp) {bound bound' : Nat}
    (more : bound + reserve ≤ bound') (expr : Expr) (hm : m.Reserves reserve (loops + 1) m') :
    EndsUnder ops reserve ((iterate limits bound .value expr).run m)
      ((iterate (limits.plus reserve) bound' .value (expr.under ops)).run m') := by
  induction bound generalizing bound' expr m m' with
  | zero => exact .limit m rfl _
  | succ bound ih =>
    by_cases hspent : m.remaining = 0
    · rw [run_iterate_of_spent limits (bound + 1) .value expr hspent]
      exact .limit m rfl _
    obtain ⟨bound', rfl⟩ := Nat.exists_eq_succ_of_ne_zero (by omega : bound' ≠ 0)
    obtain ⟨hfunds, hpaid⟩ := hm.pay hspent (m'.steps + ops.length)
    have hremaining := hm.remaining (Nat.succ_ne_zero loops)
    -- At a literal the first step already applies an operator, so here the loops part at once.
    by_cases hlit : ∃ value, expr = .lit value
    · obtain ⟨value, rfl⟩ := hlit
      obtain ⟨trace, hrun⟩ := run_iterate_lit limits .value value (Nat.succ_ne_zero bound) hspent
      rw [hrun]
      refine .value fun enough => ?_
      have hends := endsWith_iterate_under (limits.plus reserve)
        (by omega : ops.length ≤ bound' + 1) (by omega) hfunds value
      exact hends.of_boundAlike ⟨hm.bindings, hm.betas⟩
    have hcarries := carries_reserves limits reserve
    have hstep := hcarries.stepWith
      (hcarries.iterate (by omega : bound ≤ bound') (loops + 1)) expr _ _ hpaid
    rw [run_iterate_succ limits bound .value expr hspent,
      run_iterate_succ _ bound' .value _ hfunds, EStateM.run_bind, EStateM.run_bind,
      Expr.run_stepWith_under (fun value h => hlit ⟨value, h⟩), EStateM.run_bind]
    generalize EStateM.run _ _ = r at hstep ⊢
    generalize EStateM.run _ _ = r' at hstep ⊢
    cases hstep with
    | @ok next _ m₁ m₁' results machines =>
      obtain rfl := results
      exact endsUnder_arrive (by omega) (ih (by omega)) next machines
    | error error machines => exact .error (.error error machines.toBoundAlike)
    | limit m limited => exact .limit m limited _

theorem endsUnder_evaluate (limits : Limits) (ops : List UnaryOp) (expr : Expr)
    (hm : m.Reserves reserve m.loops m') :
    EndsUnder ops reserve ((expr.evaluate limits).run m)
      (((expr.under ops).evaluate (limits.plus reserve)).run m') := by
  have hencloses := encloses_reserves limits reserve m.loops
  have hmore : limits.iterations + reserve ≤ (limits.plus reserve).iterations := Nat.le_refl _
  rw [Expr.evaluate, Expr.evaluate, runLoop, runLoop]
  by_cases hidle : m.loops = 0
  · rw [run_inLoop_of_idle hidle, run_inLoop_of_idle (hm.loops_second.trans hidle)]
    exact (endsUnder_iterate limits ops hmore expr (hencloses.outermost hm hidle)).leaveLoop
  rcases run_inLoop_of_busy limits (iterate limits limits.iterations .value expr) hidle with
    ⟨error, limited, hrun⟩ | ⟨room, stack⟩
  · rw [hrun]
    exact .limit m limited _
  · rw [run_inLoop_of_room hidle room stack, run_inLoop_of_room
      (fun hidle' => hidle (hm.loops_second.symm.trans hidle')) (hm.loops_second ▸ room)
      (hm.loops_second ▸ stack)]
    exact (endsUnder_iterate limits ops hmore expr (hencloses.inner hm hidle)).leaveLoop

end EvalM

/-! ### Main result -/

/-- With unary operators in front, and a step more for each of them, an expression evaluates to what
the operators make of its value, or fails as the first operator fails that cannot be applied; an
error of the expression that is not about the limits is that of the whole, which takes no step
more.  The arguments bound afterwards are the same, and as many.  A machine on which no loop is in
progress may be the same one in both evaluations (`Machine.reserves_of_idle`). -/
theorem evaluate_under (limits : Limits) (ops : List UnaryOp) (expr : Expr) (m : Machine) :
    (∀ value m₁, (expr.evaluate limits).run m = .ok value m₁ →
      ∀ m', m.Reserves ops.length m.loops m' →
        EndsWith m₁ (UnaryOp.evalAll ops value)
          (((expr.under ops).evaluate (limits.plus ops.length)).run m')) ∧
    (∀ error m₁, (expr.evaluate limits).run m = .error error m₁ →
      error.isNonTermination = false → ∀ m', m.Reserves 0 m.loops m' →
        EndsWith m₁ (.error error) (((expr.under ops).evaluate limits).run m')) := by
  constructor
  · intro value m₁ hrun m' hm
    have hends := endsUnder_evaluate limits ops expr hm
    rw [hrun] at hends
    cases hends with
    | value ends => exact ends (Nat.le_refl _)
  · intro error m₁ hrun settled m' hm
    have hends := endsUnder_evaluate limits ops expr hm
    rw [hrun] at hends
    cases hends with
    | error ends => exact ends
    | limit _ limited =>
      rw [limited] at settled
      cases settled

/-- A function applied once, with just the steps and the loops that it needs, under a negation of
what it spells and under an operator that its value is no operand of; and a division by zero. -/
theorem evaluate_under_just_enough :
    ∃ body expr failing m₁ m₂,
      body = .binary (.strict .add) (.var (-1)) (.var (-1)) ∧
      expr = .app (.lam (-1) body) (.lit (.int 3)) ∧
      failing = .binary (.strict .div) (.lit (.int 1)) (.lit (.int 0)) ∧
      (expr.evaluate ⟨5, 2, 2⟩).run {} = .ok (.int 6) m₁ ∧ m₁.remaining = 0 ∧
      EndsWith m₁ (.ok (.int (-6)))
        (((Expr.unary .negate (.unary .stringToInt (.unary .intToString expr))).evaluate
          ⟨8, 2, 2⟩).run {}) ∧
      EndsWith m₁ (.error (.typeMismatch (.unary .logicalNot) .boolean (.int (-6))))
        (((Expr.unary .logicalNot (.unary .negate expr)).evaluate ⟨7, 2, 2⟩).run {}) ∧
      (failing.evaluate ⟨3, 2, 2⟩).run {} = .error (.divisionByZero .div) m₂ ∧
      EndsWith m₂ (.error (.divisionByZero .div))
        (((Expr.unary .logicalNot (.unary .negate failing)).evaluate ⟨3, 2, 2⟩).run {}) := by
  let body : Expr := .binary (.strict .add) (.var (-1)) (.var (-1))
  let expr : Expr := .app (.lam (-1) body) (.lit (.int 3))
  let failing : Expr := .binary (.strict .div) (.lit (.int 1)) (.lit (.int 0))
  have outcome₁ : outcome .lit ((expr.evaluate ⟨5, 2, 2⟩).run {}) = .ok (.lit (.int 6)) := by
    decide +kernel
  have spent : (after ((expr.evaluate ⟨5, 2, 2⟩).run {})).remaining = 0 := by decide +kernel
  have outcome₂ : outcome .lit ((failing.evaluate ⟨3, 2, 2⟩).run {}) =
      .error (.divisionByZero .div) := by
    decide +kernel
  have spelled : UnaryOp.evalAll [.intToString, .stringToInt, .negate] (.int 6) =
      .ok (.int (-6)) := by
    decide +kernel
  cases hrun₁ : (expr.evaluate ⟨5, 2, 2⟩).run {} with
  | error error m₁ =>
    rw [hrun₁] at outcome₁
    cases outcome₁
  | ok value m₁ =>
    rw [hrun₁] at outcome₁ spent
    cases outcome₁
    cases hrun₂ : (failing.evaluate ⟨3, 2, 2⟩).run {} with
    | ok value m₂ =>
      rw [hrun₂] at outcome₂
      cases outcome₂
    | error error m₂ =>
      rw [hrun₂] at outcome₂
      cases outcome₂
      have hnegation := (evaluate_under ⟨5, 2, 2⟩ [.intToString, .stringToInt, .negate] expr {}).1
        _ m₁ hrun₁ {} (Machine.reserves_of_idle rfl _)
      have hmismatch := (evaluate_under ⟨5, 2, 2⟩ [.negate, .logicalNot] expr {}).1
        _ m₁ hrun₁ {} (Machine.reserves_of_idle rfl _)
      have hdivision := (evaluate_under ⟨3, 2, 2⟩ [.negate, .logicalNot] failing {}).2
        _ m₂ hrun₂ rfl {} (Machine.reserves_of_idle rfl _)
      rw [spelled] at hnegation
      exact ⟨body, expr, failing, m₁, m₂, rfl, rfl, rfl, hrun₁, spent, hnegation, hmismatch, hrun₂,
        hdivision⟩

end Lambda94
