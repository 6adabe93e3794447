import Lambda94.Proofs.MachineRun
import Lambda94.Proofs.OperatorError
import Mathlib.Order.MinMax

/-!
# Expressions without functions

An expression without functions, variables and applications means what its operators make of what
their operands mean: `Expr.denote`.  The machine finds that out, by loops inside loops for strict
operators and conditions, by steps in place under unary operators and by going on with the branch
that a condition chooses, within as many steps as the expression has nodes and with as many loops
inside one another as it is high: `evaluate_eq_denote`.
-/

namespace Lambda94

namespace Expr

/-- There are no functions, variables and applications in the expression. -/
def FirstOrder : Expr → Prop
  | .lit _ => True
  | .unary _ operand => operand.FirstOrder
  | .binary (.strict _) left right => left.FirstOrder ∧ right.FirstOrder
  | .cond c t e => c.FirstOrder ∧ t.FirstOrder ∧ e.FirstOrder
  | .binary .apply _ _ | .lam .. | .var _ => False

/-- What an expression without functions evaluates to, by what its parts evaluate to. -/
def denote : (expr : Expr) → expr.FirstOrder → Except EvalError Value
  | .lit value, _ => .ok value
  | .unary op operand, first => do
    let value ← operand.denote first
    op.eval value
  | .binary (.strict op) left right, first => do
    let a ← left.denote first.1
    let b ← right.denote first.2
    op.eval a b
  | .cond c t e, first => do
    match ← c.denote first.1 with
    | .bool true => t.denote first.2.1
    | .bool false => e.denote first.2.2
    | value => .error (.nonBooleanCondition value)

/-- The number of nodes of an expression. -/
def nodes : Expr → Nat
  | .lit _ | .var _ => 1
  | .unary _ operand => operand.nodes + 1
  | .binary _ left right => left.nodes + right.nodes + 1
  | .cond c t e => c.nodes + t.nodes + e.nodes + 1
  | .lam _ body => body.nodes + 1

/-- How deep an expression is nested; a literal is not nested. -/
def height : Expr → Nat
  | .lit _ | .var _ => 0
  | .unary _ operand => operand.height + 1
  | .binary _ left right => max left.height right.height + 1
  | .cond c t e => max c.height (max t.height e.height) + 1
  | .lam _ body => body.height + 1

/-- The most steps that loops still take from an expression without functions to its value.  A loop
takes one step at a value, too, so the loops for operands and conditions take one at least. -/
def stepsLeft : Expr → Nat
  | .unary _ operand => operand.stepsLeft + 1
  | .binary _ left right => max 1 left.stepsLeft + max 1 right.stepsLeft + 1
  | .cond c t e => max 1 c.stepsLeft + max t.stepsLeft e.stepsLeft + 1
  | .lit _ | .lam .. | .var _ => 0

theorem max_one_stepsLeft_le (expr : Expr) : max 1 expr.stepsLeft ≤ expr.nodes := by
  induction expr with
  | lit | lam | var => simp [stepsLeft, nodes]
  | unary op operand ih =>
    rw [stepsLeft, nodes]
    omega
  | binary op left right ihl ihr =>
    rw [stepsLeft, nodes]
    omega
  | cond c t e ihc iht ihe =>
    rw [stepsLeft, nodes]
    omega

theorem FirstOrder.stepsLeft_pos {expr : Expr} (first : expr.FirstOrder)
    (unfinished : ∀ value, expr ≠ .lit value) : 1 ≤ expr.stepsLeft := by
  cases expr with
  | lit value => exact absurd rfl (unfinished value)
  | unary | binary | cond => exact Nat.le_add_left _ _
  | lam | var => exact first.elim

end Expr

/-! ### Errors of operators -/

variable {α β : Type}

/-- No error of the computation is about limits. -/
def Unlimited (x : Except EvalError α) : Prop :=
  ∀ error, x = .error error → error.isNonTermination = false

theorem Unlimited.ok (a : α) : Unlimited (.ok a) := nofun

theorem Unlimited.error {error : EvalError} (h : error.isNonTermination = false) :
    Unlimited (.error error : Except EvalError α) := FailsOnly.error h

theorem Unlimited.bind {x : Except EvalError α} {f : α → Except EvalError β} (hx : Unlimited x)
    (hf : ∀ a, Unlimited (f a)) : Unlimited (x >>= f) := FailsOnly.bind hx hf

/-- An error about operands is not about limits. -/
theorem FailsOnly.unlimited {x : Except EvalError α} (hx : FailsOnly EvalError.OfOperator x) :
    Unlimited x := hx.mono fun _ h => by cases h <;> rfl

theorem Expr.unlimited_denote {expr : Expr} (first : expr.FirstOrder) :
    Unlimited (expr.denote first) := by
  induction expr with
  | lit value => exact .ok value
  | unary op operand ih => exact (ih first).bind fun value => (op.failsOnly_eval value).unlimited
  | binary op left right ihl ihr =>
    cases op with
    | strict op =>
      exact (ihl first.1).bind fun a => (ihr first.2).bind fun b =>
        (op.failsOnly_eval a b).unlimited
    | apply => exact first.elim
  | cond c t e ihc iht ihe =>
    refine (ihc first.1).bind fun value => ?_
    cases value with
    | bool b =>
      cases b with
      | true => exact iht first.2.1
      | false => exact ihe first.2.2
    | str | int => exact .error rfl
  | lam | var => exact first.elim

/-! ### Runs without functions -/

/-- From one machine to the other nothing was bound, and at most `cost` steps were paid for. -/
structure Machine.Kept (cost : Nat) (m m' : Machine) : Prop where
  bindings : m'.bindings = m.bindings
  betas : m'.betas = m.betas
  loops : m'.loops = m.loops
  remaining : m.remaining ≤ m'.remaining + cost

theorem Machine.Kept.trans {cost cost' : Nat} {m m' m'' : Machine} (h : m.Kept cost m')
    (h' : m'.Kept cost' m'') : m.Kept (cost + cost') m'' where
  bindings := h'.bindings.trans h.bindings
  betas := h'.betas.trans h.betas
  loops := h'.loops.trans h.loops
  remaining := by have := h.remaining; have := h'.remaining; omega

/-- Counting a step keeps the machine. -/
theorem Machine.Kept.counted {cost : Nat} {m m' : Machine}
    (h : Machine.Kept cost { m with steps := m.steps + 1 } m') : m.Kept cost m' :=
  ⟨h.bindings, h.betas, h.loops, h.remaining⟩

namespace EvalM

/-- On the machine, the computation ends with the result or error and keeps the machine. -/
def Delivers (x : EvalM α) (result : Except EvalError α) (cost : Nat) (m : Machine) : Prop :=
  ∃ m', x.run m = (ofExcept result : EvalM α).run m' ∧ m.Kept cost m'

/-- A loop inside another one delivers what it delivers by itself, if there is room for it. -/
theorem Delivers.inLoop {limits : Limits} {x : EvalM α} {result : Except EvalError α} {cost : Nat}
    {m : Machine} (busy : m.loops ≠ 0) (room : m.loops < limits.depth)
    (stack : m.loops < limits.frames)
    (hx : Delivers x result cost { m with loops := m.loops + 1 }) :
    Delivers (EvalM.inLoop limits x) result cost m := by
  obtain ⟨m', hrun, kept⟩ := hx
  have hloops : m'.loops - 1 = m.loops := by rw [kept.loops, Nat.add_sub_cancel]
  refine ⟨{ m' with loops := m'.loops - 1 }, ?_, kept.bindings, kept.betas, hloops, kept.remaining⟩
  rw [run_inLoop_of_room busy room stack, hrun]
  cases result <;> rfl

/-- What a step of an expression that is not a literal does to the expression and to the machine. -/
inductive Progress (m : Machine) (expr : Expr) (first : expr.FirstOrder) :
    EStateM.Result EvalError Machine Expr → Prop
  | ok {next : Expr} {m' : Machine} {cost : Nat} (first' : next.FirstOrder)
    (same : next.denote first' = expr.denote first) (height : next.height ≤ expr.height)
    (kept : m.Kept cost m') (closer : cost + 1 + next.stepsLeft ≤ expr.stepsLeft) :
    Progress m expr first (.ok next m')
  | error {error : EvalError} {m' : Machine} {cost : Nat} (same : expr.denote first = .error error)
    (kept : m.Kept cost m') (closer : cost + 1 ≤ expr.stepsLeft) :
    Progress m expr first (.error error m')

/-- A step that ends with what the operator of the expression makes of values. -/
theorem progress_operator {expr : Expr} {first : expr.FirstOrder} {m m' : Machine} {cost : Nat}
    {result : Except EvalError Value} (same : expr.denote first = result) (kept : m.Kept cost m')
    (closer : cost + 1 ≤ expr.stepsLeft) :
    Progress m expr first ((do return .lit (← ofExcept result) : EvalM Expr).run m') := by
  cases result with
  | error error => exact .error same kept closer
  | ok value =>
    show Progress m expr first (.ok (.lit value) m')
    exact .ok trivial same.symm (Nat.zero_le _) kept closer

variable {run : (target : Target) → Expr → EvalM target.Result}

/-- Loops deliver what the parts of the expression denote, on machines inside the same loops that
have paid for no more than the rest of the expression needs. -/
def DeliversParts (run : (target : Target) → Expr → EvalM target.Result) (expr : Expr)
    (m : Machine) : Prop :=
  ∀ (part : Expr) (first : part.FirstOrder) (m' : Machine), part.height < expr.height →
    max 1 part.stepsLeft < expr.stepsLeft → m'.loops = m.loops →
    m.remaining + max 1 part.stepsLeft < m'.remaining + expr.stepsLeft →
    Delivers (run .value part) (part.denote first) (max 1 part.stepsLeft) m'

theorem DeliversParts.operand {op : UnaryOp} {operand : Expr} {m : Machine}
    (hrun : DeliversParts run (.unary op operand) m) :
    DeliversParts run operand { m with steps := m.steps + 1 } :=
  fun part first m' lower fewer loops funds => hrun part first m' (Nat.lt_succ_of_lt lower)
    (Nat.lt_succ_of_lt fewer) loops (Nat.lt_succ_of_lt funds)

/-- A step in place makes as much progress as the step of the operand. -/
theorem progress_unary {op : UnaryOp} {operand : Expr} (first : (Expr.unary op operand).FirstOrder)
    (stuck : ∀ value, operand ≠ .lit value) {m : Machine}
    (hoperand : Progress { m with steps := m.steps + 1 } operand first
      ((operand.stepWith run).run { m with steps := m.steps + 1 })) :
    Progress m (.unary op operand) first (((Expr.unary op operand).stepWith run).run m) := by
  rw [Expr.stepWith_unary op stuck]
  show Progress m (.unary op operand) first
    ((operand.stepWith run >>= fun next => Pure.pure (.unary op next)).run
      { m with steps := m.steps + 1 })
  cases hx : (operand.stepWith run).run { m with steps := m.steps + 1 } with
  | error error m' =>
    rw [hx] at hoperand
    rw [run_bind_of_error hx]
    cases hoperand with
    | error same kept closer =>
      exact .error (by rw [Expr.denote, same]; rfl) kept.counted (Nat.le_succ_of_le closer)
  | ok next m' =>
    rw [hx] at hoperand
    rw [run_bind_of_ok hx]
    cases hoperand with
    | ok first' same height kept closer =>
      exact .ok first' (congrArg (· >>= op.eval) same) (Nat.succ_le_succ height) kept.counted
        (Nat.succ_le_succ closer)

/-- The step of a strict operator runs a loop for each operand, the left one first. -/
theorem progress_strict {op : StrictOp} {left right : Expr}
    (first : (Expr.binary (.strict op) left right).FirstOrder) {m : Machine}
    (hrun : DeliversParts run (.binary (.strict op) left right) m) :
    Progress m _ first (((Expr.binary (.strict op) left right).stepWith run).run m) := by
  have hlower : left.height < (Expr.binary (.strict op) left right).height ∧
      right.height < (Expr.binary (.strict op) left right).height := by
    rw [Expr.height]
    omega
  have hsteps : (Expr.binary (.strict op) left right).stepsLeft =
      max 1 left.stepsLeft + max 1 right.stepsLeft + 1 := rfl
  obtain ⟨m₁, hleft, kept₁⟩ := hrun left first.1 { m with steps := m.steps + 1 } hlower.1
    (by omega) rfl (by dsimp only; omega)
  show Progress m _ first ((run .value left >>= fun a => run .value right >>= fun b =>
    do return .lit (← ofExcept (op.eval a b))).run { m with steps := m.steps + 1 })
  cases ha : left.denote first.1 with
  | error error =>
    rw [ha] at hleft
    rw [run_bind_of_error hleft]
    exact .error (by rw [Expr.denote, ha]; rfl) kept₁.counted (by omega)
  | ok a =>
    rw [ha] at hleft
    rw [run_bind_of_ok hleft]
    have hremaining : m.remaining ≤ m₁.remaining + max 1 left.stepsLeft := kept₁.remaining
    obtain ⟨m₂, hright, kept₂⟩ := hrun right first.2 m₁ hlower.2 (by omega) kept₁.loops (by omega)
    cases hb : right.denote first.2 with
    | error error =>
      rw [hb] at hright
      rw [run_bind_of_error hright]
      exact .error (by rw [Expr.denote, ha, hb]; rfl) (kept₁.trans kept₂).counted (by omega)
    | ok b =>
      rw [hb] at hright
      rw [run_bind_of_ok hright]
      exact progress_operator (by rw [Expr.denote, ha, hb]; rfl) (kept₁.trans kept₂).counted
        (by omega)

/-- The step of a conditional runs a loop for the condition and leaves the branch as it is. -/
theorem progress_cond {c t e : Expr} (first : (Expr.cond c t e).FirstOrder) {m : Machine}
    (hrun : DeliversParts run (.cond c t e) m) :
    Progress m _ first (((Expr.cond c t e).stepWith run).run m) := by
  have hlower : c.height < (Expr.cond c t e).height ∧ t.height ≤ (Expr.cond c t e).height ∧
      e.height ≤ (Expr.cond c t e).height := by
    rw [Expr.height]
    omega
  have hsteps : (Expr.cond c t e).stepsLeft =
      max 1 c.stepsLeft + max t.stepsLeft e.stepsLeft + 1 := rfl
  obtain ⟨m₁, hcondition, kept₁⟩ := hrun c first.1 { m with steps := m.steps + 1 } hlower.1
    (by omega) rfl (by dsimp only; omega)
  show Progress m _ first ((run .value c >>= fun value : Value =>
    match value with
    | .bool true => Pure.pure t
    | .bool false => Pure.pure e
    | value => throw (.nonBooleanCondition value) : EvalM Expr).run { m with steps := m.steps + 1 })
  cases hc : c.denote first.1 with
  | error error =>
    rw [hc] at hcondition
    rw [run_bind_of_error hcondition]
    exact .error (by rw [Expr.denote, hc]; rfl) kept₁.counted (by omega)
  | ok value =>
    rw [hc] at hcondition
    rw [run_bind_of_ok hcondition]
    cases value with
    | bool b =>
      cases b with
      | true =>
        exact .ok first.2.1 (by rw [Expr.denote, hc]; rfl) hlower.2.1 kept₁.counted (by omega)
      | false =>
        exact .ok first.2.2 (by rw [Expr.denote, hc]; rfl) hlower.2.2 kept₁.counted (by omega)
    | str | int => exact .error (by rw [Expr.denote, hc]; rfl) kept₁.counted (by omega)

/-- A step whose loops deliver what the parts denote makes progress. -/
theorem progress_stepWith {expr : Expr} (first : expr.FirstOrder)
    (unfinished : ∀ value, expr ≠ .lit value) {m : Machine} (hrun : DeliversParts run expr m) :
    Progress m expr first ((expr.stepWith run).run m) := by
  induction expr generalizing m with
  | lit value => exact absurd rfl (unfinished value)
  | lam | var => exact first.elim
  | unary op operand ih =>
    by_cases hlit : ∃ value, operand = .lit value
    · obtain ⟨value, rfl⟩ := hlit
      have kept : m.Kept 0 { m with steps := m.steps + 1 } := ⟨rfl, rfl, rfl, Nat.le_refl _⟩
      exact progress_operator rfl kept (Nat.le_refl _)
    · have stuck : ∀ value, operand ≠ .lit value := fun value h => hlit ⟨value, h⟩
      exact progress_unary first stuck (ih first stuck hrun.operand)
  | binary op left right =>
    cases op with
    | apply => exact first.elim
    | strict op => exact progress_strict first hrun
  | cond c t e => exact progress_cond first hrun

/-- A loop takes one step at a value. -/
theorem delivers_iterate_lit (limits : Limits) (bound : Nat) (value : Value) {m : Machine}
    (funds : m.remaining ≠ 0) :
    Delivers (iterate limits (bound + 1) .value (.lit value)) (.ok value) 1 m := by
  obtain ⟨trace, harrive⟩ := run_arrive_of_reach limits bound
    { m with remaining := m.remaining - 1, steps := m.steps + 1 }
    (rfl : Target.value.reach? (.lit value) = some value)
  have hrun : (iterate limits (bound + 1) .value (.lit value)).run m =
      .ok value { m with remaining := m.remaining - 1, steps := m.steps + 1, trace } := by
    rw [run_iterate_succ limits bound .value _ funds]
    exact harrive
  refine ⟨_, hrun, rfl, rfl, rfl, ?_⟩
  dsimp only
  omega

/-- A loop with room for the loops inside it delivers what the expression denotes. -/
theorem delivers_iterate {limits : Limits} {bound : Nat} {expr : Expr} (first : expr.FirstOrder)
    {m : Machine} (busy : m.loops ≠ 0) (room : m.loops + expr.height ≤ limits.depth)
    (stack : m.loops + expr.height ≤ limits.frames) (funds : max 1 expr.stepsLeft ≤ m.remaining)
    (enough : max 1 expr.stepsLeft ≤ bound) :
    Delivers (iterate limits bound .value expr) (expr.denote first) (max 1 expr.stepsLeft) m := by
  induction bound generalizing expr m with
  | zero => omega
  | succ bound ih =>
    have hfunds : m.remaining ≠ 0 := by omega
    by_cases hlit : ∃ value, expr = .lit value
    · obtain ⟨value, rfl⟩ := hlit
      exact delivers_iterate_lit limits bound value hfunds
    have unfinished : ∀ value, expr ≠ .lit value := fun value h => hlit ⟨value, h⟩
    have hpos := first.stepsLeft_pos unfinished
    have hprogress : Progress { m with remaining := m.remaining - 1 } expr first
        ((expr.stepWith fun target expr => inLoop limits (iterate limits bound target expr)).run
          { m with remaining := m.remaining - 1 }) := by
      refine progress_stepWith first unfinished fun part first' m' lower fewer loops funds' => ?_
      dsimp only at loops funds'
      refine Delivers.inLoop (by omega) (by omega) (by omega) ?_
      exact ih first' (Nat.succ_ne_zero _) (by dsimp only; omega) (by dsimp only; omega)
        (by dsimp only; omega) (by omega)
    rw [Delivers, run_iterate_succ limits bound .value expr hfunds]
    cases hx : (expr.stepWith fun target expr =>
        inLoop limits (iterate limits bound target expr)).run
        { m with remaining := m.remaining - 1 } with
    | error error m₁ =>
      rw [hx] at hprogress
      rw [run_bind_of_error hx]
      cases hprogress with
      | error same kept closer =>
        have hremaining := kept.remaining
        dsimp only at hremaining
        exact ⟨m₁, by rw [same]; rfl, kept.bindings, kept.betas, kept.loops, by omega⟩
    | ok next m₁ =>
      rw [hx] at hprogress
      rw [run_bind_of_ok hx]
      cases hprogress with
      | ok first' same height kept closer =>
        have hremaining := kept.remaining
        have hloops := kept.loops
        dsimp only at hremaining hloops
        cases hreach : Target.value.reach? next with
        | some value =>
          obtain ⟨trace, harrive⟩ := run_arrive_of_reach limits bound m₁ hreach
          obtain rfl := Target.toExpr_of_reach? hreach
          rw [harrive, ← same]
          exact ⟨_, rfl, kept.bindings, kept.betas, kept.loops, by dsimp only; omega⟩
        | none =>
          obtain ⟨trace, harrive⟩ := run_arrive_of_not_reach limits bound m₁ hreach
          have unfinished' : ∀ value, next ≠ .lit value := by
            rintro value rfl
            cases hreach
          have hpos' := first'.stepsLeft_pos unfinished'
          rw [harrive, ← same]
          have hrest : Delivers (iterate limits bound .value next) (next.denote first')
              (max 1 next.stepsLeft) { m₁ with trace } :=
            ih first' (by dsimp only; omega) (by dsimp only; omega) (by dsimp only; omega)
              (by dsimp only; omega) (by omega)
          obtain ⟨m₂, hrun, kept'⟩ := hrest
          have hremaining' : m₁.remaining ≤ m₂.remaining + max 1 next.stepsLeft := kept'.remaining
          exact ⟨m₂, hrun, kept'.bindings.trans kept.bindings, kept'.betas.trans kept.betas,
            kept'.loops.trans kept.loops, by omega⟩

end EvalM

open EvalM

/-! ### Main result -/

/-- An expression without functions evaluates to what it denotes, or fails with the error that it
denotes, which is never one about the limits, provided that the budget holds a step for each node,
that loops may be nested as deep as the expression and that there is stack for them.  The machine is
left without a new binding. -/
theorem evaluate_eq_denote {expr : Expr} (first : expr.FirstOrder) {limits : Limits}
    (budget : expr.nodes ≤ limits.iterations) (nesting : expr.height < limits.depth)
    (stack : expr.height < limits.frames) {m : Machine} (idle : m.loops = 0) :
    (∃ m', (expr.evaluate limits).run m = (ofExcept (expr.denote first) : EvalM Value).run m' ∧
      m'.bindings = m.bindings ∧ m'.betas = m.betas ∧ m'.loops = 0 ∧
      limits.iterations ≤ m'.remaining + expr.nodes) ∧
    ∀ error, expr.denote first = .error error → error.isNonTermination = false := by
  refine ⟨?_, Expr.unlimited_denote first⟩
  have hsteps := expr.max_one_stepsLeft_le
  have hloop : Delivers (iterate limits limits.iterations .value expr) (expr.denote first)
      (max 1 expr.stepsLeft) { m with remaining := limits.iterations, loops := 1 } :=
    delivers_iterate first Nat.one_ne_zero (by dsimp only; omega) (by dsimp only; omega)
      (by dsimp only; omega) (by omega)
  obtain ⟨m', hrun, kept⟩ := hloop
  have hloops : m'.loops = 1 := kept.loops
  have hremaining : limits.iterations ≤ m'.remaining + max 1 expr.stepsLeft := kept.remaining
  refine ⟨{ m' with loops := m'.loops - 1 }, ?_, kept.bindings, kept.betas, ?_, ?_⟩
  · rw [Expr.evaluate, runLoop, run_inLoop_of_idle idle, hrun]
    cases expr.denote first <;> rfl
  · dsimp only
    omega
  · dsimp only
    omega

/-- A condition with operators in its branches, and an operator both of whose operands fail, with
just the limits that the theorem asks for.  With one loop less the second one gives up before it
fails. -/
theorem evaluate_eq_denote_just_enough :
    ∃ (expr failing : Expr) (m m' : Machine),
      expr = .cond (.binary (.strict .less) (.lit (.int 1)) (.lit (.int 2)))
        (.unary .negate (.binary (.strict .add) (.lit (.int 3)) (.lit (.int 4))))
        (.binary (.strict .div) (.lit (.int 1)) (.lit (.int 0))) ∧
      failing = .binary (.strict .add)
        (.binary (.strict .div) (.lit (.int 1)) (.lit (.int 0)))
        (.binary (.strict .and) (.lit (.bool true)) (.lit (.int 3))) ∧
      expr.nodes = 11 ∧ expr.height = 3 ∧
      (expr.evaluate ⟨11, 4, 4⟩).run {} = .ok (.int (-7)) m ∧
      failing.nodes = 7 ∧ failing.height = 2 ∧
      (failing.evaluate ⟨7, 3, 3⟩).run {} = .error (.divisionByZero .div) m' ∧
      outcome .lit ((failing.evaluate ⟨7, 2, 3⟩).run {}) = .error (.tooDeep 2) := by
  let expr : Expr := .cond (.binary (.strict .less) (.lit (.int 1)) (.lit (.int 2)))
    (.unary .negate (.binary (.strict .add) (.lit (.int 3)) (.lit (.int 4))))
    (.binary (.strict .div) (.lit (.int 1)) (.lit (.int 0)))
  let failing : Expr := .binary (.strict .add)
    (.binary (.strict .div) (.lit (.int 1)) (.lit (.int 0)))
    (.binary (.strict .and) (.lit (.bool true)) (.lit (.int 3)))
  have first : expr.FirstOrder := ⟨⟨trivial, trivial⟩, ⟨trivial, trivial⟩, trivial, trivial⟩
  have first' : failing.FirstOrder := ⟨⟨trivial, trivial⟩, trivial, trivial⟩
  have budget : expr.nodes ≤ (⟨11, 4, 4⟩ : Limits).iterations := by decide
  have budget' : failing.nodes ≤ (⟨7, 3, 3⟩ : Limits).iterations := by decide
  obtain ⟨⟨m, hrun, -⟩, -⟩ :=
    evaluate_eq_denote first budget (by decide) (by decide) (rfl : ({} : Machine).loops = 0)
  obtain ⟨⟨m', hrun', -⟩, -⟩ :=
    evaluate_eq_denote first' budget' (by decide) (by decide) (rfl : ({} : Machine).loops = 0)
  exact ⟨expr, failing, m, m', rfl, rfl, rfl, rfl, hrun, rfl, rfl, hrun', by decide +kernel⟩

end Lambda94
