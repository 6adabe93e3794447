import Lambda94.Eval.Machine
import Lambda94.Proofs.Outcome

/-!
# Runs of the machine

What a machine does, as a relation that leaves out counts and limits and adds two things a machine
does not keep: the expressions that wait while a loop is in progress, because a step will come back
to them, and the log of all bindings of arguments.  `follows_stepWith`, `follows_iterate` and
`follows_runLoop` say that the functions of the machine run so.

Every binding enlarges the store, unless its binder had an argument before, which is then lost:
`Run.size_add_overwrites`.  On a machine that started fresh the counts tell whether that happened.
-/

namespace Lambda94

/-- The unevaluated arguments, by binder. -/
abbrev Store := Std.TreeMap Int Expr

theorem Store.getElem?_insert_self (store : Store) (id : Int) (arg : Expr) :
    (store.insert id arg)[id]? = some arg := Std.TreeMap.getElem?_insert_self

theorem Store.getElem?_insert_of_ne (store : Store) {id id' : Int} (arg : Expr) (h : id' ≠ id) :
    (store.insert id arg)[id']? = store[id']? := by
  rw [Std.TreeMap.getElem?_insert, if_neg]
  exact fun hcompare => h (Std.LawfulEqOrd.eq_of_compare hcompare).symm

/-- What a machine is to do. -/
inductive Task
  | step (expr : Expr)
  | loop (target : Target) (expr : Expr)

/-- The binding of an argument. -/
structure Binding where
  /-- What waits for the loops in progress. -/
  pending : List Expr
  /-- The store before the argument enters it. -/
  store : Store
  binder : Int
  body : Expr
  arg : Expr

/-- The binder has an argument already, which is lost. -/
def Binding.Overwrites (binding : Binding) : Prop := binding.binder ∈ binding.store

instance (binding : Binding) : Decidable binding.Overwrites :=
  inferInstanceAs (Decidable (binding.binder ∈ binding.store))

/-- `Run pending task store log outcome store'`: with `pending` waiting, the task changes `store` to
`store'` by the bindings of `log` and ends with an expression or an error. -/
inductive Run : List Expr → Task → Store → List Binding → Except EvalError Expr → Store → Prop
  | lit {pending store} (value : Value) :
    Run pending (.step (.lit value)) store [] (.ok (.lit value)) store
  | lam {pending store} (binder : Int) (body : Expr) :
    Run pending (.step (.lam binder body)) store [] (.ok (.lam binder body)) store
  | var {pending store} {id : Int} {arg : Expr} (bound : store[id]? = some arg) :
    Run pending (.step (.var id)) store [] (.ok arg) store
  | varError {pending store} {id : Int} (unbound : store[id]? = none) :
    Run pending (.step (.var id)) store [] (.error (.unboundVariable id)) store
  | unaryValue {pending store} (op : UnaryOp) (value : Value) :
    Run pending (.step (.unary op (.lit value))) store [] ((op.eval value).map .lit) store
  | unary {pending store log outcome store'} (op : UnaryOp) {operand : Expr}
    (stuck : ∀ value, operand ≠ .lit value)
    (inner : Run pending (.step operand) store log outcome store') :
    Run pending (.step (.unary op operand)) store log (outcome.map (.unary op)) store'
  | strict {pending store log store₁ log' store₂ a b} (op : StrictOp) {left right : Expr}
    (first : Run (right :: pending) (.loop .value left) store log (.ok (.lit a)) store₁)
    (second : Run pending (.loop .value right) store₁ log' (.ok (.lit b)) store₂) :
    Run pending (.step (.binary (.strict op) left right)) store (log ++ log')
      ((op.eval a b).map .lit) store₂
  | strictLeft {pending store log error store'} (op : StrictOp) {left right : Expr}
    (first : Run (right :: pending) (.loop .value left) store log (.error error) store') :
    Run pending (.step (.binary (.strict op) left right)) store log (.error error) store'
  | strictRight {pending store log store₁ log' store₂ a error} (op : StrictOp) {left right : Expr}
    (first : Run (right :: pending) (.loop .value left) store log (.ok (.lit a)) store₁)
    (second : Run pending (.loop .value right) store₁ log' (.error error) store₂) :
    Run pending (.step (.binary (.strict op) left right)) store (log ++ log') (.error error) store₂
  | apply {pending store log store' binder body} {fn arg : Expr}
    (head : Run (arg :: pending) (.loop .headNormal fn) store log (.ok (.lam binder body)) store') :
    Run pending (.step (.app fn arg)) store (log ++ [⟨pending, store', binder, body, arg⟩])
      (.ok body) (store'.insert binder arg)
  | applyVar {pending store log store' id} {fn arg : Expr}
    (head : Run (arg :: pending) (.loop .headNormal fn) store log (.ok (.var id)) store') :
    Run pending (.step (.app fn arg)) store log (.ok (.app (.var id) arg)) store'
  | applyValue {pending store log store' value} {fn arg : Expr}
    (head : Run (arg :: pending) (.loop .headNormal fn) store log (.ok (.lit value)) store') :
    Run pending (.step (.app fn arg)) store log (.error (.applyNonFunction value)) store'
  | applyError {pending store log store' error} {fn arg : Expr}
    (head : Run (arg :: pending) (.loop .headNormal fn) store log (.error error) store') :
    Run pending (.step (.app fn arg)) store log (.error error) store'
  | cond {pending store log store' b} {condition thenBranch elseBranch : Expr}
    (first : Run (thenBranch :: elseBranch :: pending) (.loop .value condition) store log
      (.ok (.lit (.bool b))) store') :
    Run pending (.step (.cond condition thenBranch elseBranch)) store log
      (.ok (if b then thenBranch else elseBranch)) store'
  | condOther {pending store log store' value} {condition thenBranch elseBranch : Expr}
    (first : Run (thenBranch :: elseBranch :: pending) (.loop .value condition) store log
      (.ok (.lit value)) store')
    (other : value.kind ≠ .boolean) :
    Run pending (.step (.cond condition thenBranch elseBranch)) store log
      (.error (.nonBooleanCondition value)) store'
  | condError {pending store log store' error} {condition thenBranch elseBranch : Expr}
    (first : Run (thenBranch :: elseBranch :: pending) (.loop .value condition) store log
      (.error error) store') :
    Run pending (.step (.cond condition thenBranch elseBranch)) store log (.error error) store'
  | limit {pending store error} (target : Target) (expr : Expr)
    (limited : error.isNonTermination = true) :
    Run pending (.loop target expr) store [] (.error error) store
  | stepError {pending store log store' error} {target : Target} {expr : Expr}
    (step : Run pending (.step expr) store log (.error error) store') :
    Run pending (.loop target expr) store log (.error error) store'
  | reach {pending store log store'} {target : Target} {expr next : Expr}
    (step : Run pending (.step expr) store log (.ok next) store')
    (reached : (target.reach? next).isSome) :
    Run pending (.loop target expr) store log (.ok next) store'
  | next {pending store log store₁ log' outcome store₂} {target : Target} {expr next : Expr}
    (step : Run pending (.step expr) store log (.ok next) store₁)
    (short : target.reach? next = none)
    (rest : Run pending (.loop target next) store₁ log' outcome store₂) :
    Run pending (.loop target expr) store (log ++ log') outcome store₂

/-! ### What the machine does -/

/-- The result of a loop as an expression. -/
def Target.toExpr : (target : Target) → target.Result → Expr
  | .value => fun value : Value => .lit value
  | .headNormal => HeadNormal.toExpr

theorem Target.toExpr_of_reach? {target : Target} {expr : Expr} {result : target.Result}
    (h : target.reach? expr = some result) : target.toExpr result = expr := by
  cases target with
  | value => cases expr <;> cases h; rfl
  | headNormal => cases expr <;> cases h <;> rfl

/-- The operand of a unary operator is stepped in place until it is a value. -/
theorem Expr.stepWith_unary {run : (target : Target) → Expr → EvalM target.Result} (op : UnaryOp)
    {operand : Expr} (stuck : ∀ value, operand ≠ .lit value) :
    (Expr.unary op operand).stepWith run =
      (do EvalM.countStep; return .unary op (← operand.stepWith run)) := by
  cases operand with
  | lit value => exact absurd rfl (stuck value)
  | _ => rfl

namespace EvalM

variable {α : Type}

/-- The machine after a computation. -/
def after : EStateM.Result EvalError Machine α → Machine
  | .ok _ m => m
  | .error _ m => m

/-- What a computation ends with, its result as an expression. -/
def outcome (toExpr : α → Expr) : EStateM.Result EvalError Machine α → Except EvalError Expr
  | .ok a _ => .ok (toExpr a)
  | .error error _ => .error error

theorem run_inLoop_of_idle {limits : Limits} {x : EvalM α} {m : Machine} (idle : m.loops = 0) :
    (inLoop limits x).run m =
      leaveLoop (x.run { m with remaining := limits.iterations, loops := 1 }) := if_pos idle

theorem run_inLoop_of_room {limits : Limits} {x : EvalM α} {m : Machine} (busy : m.loops ≠ 0)
    (room : m.loops < limits.depth) (stack : m.loops < limits.frames) :
    (inLoop limits x).run m = leaveLoop (x.run { m with loops := m.loops + 1 }) :=
  (if_neg busy).trans ((if_neg (Nat.not_le_of_lt room)).trans (if_neg (Nat.not_le_of_lt stack)))

/-- Inside another loop, the loops in progress are compared with the limits. -/
theorem run_inLoop_inner (limits : Limits) (x : EvalM α) {m : Machine} (busy : m.loops ≠ 0) :
    (inLoop limits x).run m =
      if limits.depth ≤ m.loops then .error (.tooDeep limits.depth) m
      else if limits.frames ≤ m.loops then .error (.stackExhausted limits.depth) m
      else leaveLoop (x.run { m with loops := m.loops + 1 }) := if_neg busy

/-- Inside another loop, a loop gives up at once or there is room for it. -/
theorem run_inLoop_of_busy (limits : Limits) (x : EvalM α) {m : Machine} (busy : m.loops ≠ 0) :
    (∃ error, error.isNonTermination = true ∧ (inLoop limits x).run m = .error error m) ∨
      m.loops < limits.depth ∧ m.loops < limits.frames := by
  by_cases hdepth : limits.depth ≤ m.loops
  · exact .inl ⟨_, rfl, (if_neg busy).trans (if_pos hdepth)⟩
  by_cases hframes : limits.frames ≤ m.loops
  · exact .inl ⟨_, rfl, (if_neg busy).trans ((if_neg hdepth).trans (if_pos hframes))⟩
  exact .inr ⟨Nat.lt_of_not_le hdepth, Nat.lt_of_not_le hframes⟩

/-- A computation does a task on every machine, whatever waits for it. -/
def Follows (task : Task) (toExpr : α → Expr) (x : EvalM α) : Prop :=
  ∀ pending m, ∃ log, Run pending task m.bindings log (outcome toExpr (x.run m))
    (after (x.run m)).bindings ∧ (after (x.run m)).betas = m.betas + log.length

/-- Counting a step leaves the bindings alone. -/
theorem Follows.countStep {task : Task} {toExpr : α → Expr} {x : EvalM α}
    (h : Follows task toExpr x) : Follows task toExpr (do EvalM.countStep; x) :=
  fun pending m => h pending { m with steps := m.steps + 1 }

/-- So does keeping the books of a loop. -/
theorem Follows.inLoop {target : Target} {expr : Expr} {toExpr : α → Expr} {x : EvalM α}
    (limits : Limits) (h : Follows (.loop target expr) toExpr x) :
    Follows (.loop target expr) toExpr (EvalM.inLoop limits x) := by
  have hleave : ∀ m, outcome toExpr (leaveLoop (x.run m)) = outcome toExpr (x.run m) ∧
      (after (leaveLoop (x.run m))).bindings = (after (x.run m)).bindings ∧
      (after (leaveLoop (x.run m))).betas = (after (x.run m)).betas := by
    intro m
    cases x.run m <;> exact ⟨rfl, rfl, rfl⟩
  intro pending m
  by_cases hidle : m.loops = 0
  · obtain ⟨hout, hbindings, hbetas⟩ := hleave { m with remaining := limits.iterations, loops := 1 }
    rw [run_inLoop_of_idle hidle, hout, hbindings, hbetas]
    exact h pending { m with remaining := limits.iterations, loops := 1 }
  rcases run_inLoop_of_busy limits x hidle with ⟨error, limited, hrun⟩ | ⟨room, stack⟩
  · rw [hrun]
    exact ⟨[], .limit target expr limited, rfl⟩
  · obtain ⟨hout, hbindings, hbetas⟩ := hleave { m with loops := m.loops + 1 }
    rw [run_inLoop_of_room hidle room stack, hout, hbindings, hbetas]
    exact h pending { m with loops := m.loops + 1 }

theorem outcome_ofExcept (x : Except EvalError Value) (m : Machine) :
    outcome id ((do return .lit (← ofExcept x) : EvalM Expr).run m) = x.map .lit ∧
      after ((do return .lit (← ofExcept x) : EvalM Expr).run m) = m := by
  cases x <;> exact ⟨rfl, rfl⟩

theorem run_lookup (id : Int) (m : Machine) :
    (lookup id).run m =
      match m.bindings[id]? with
      | some arg => .ok arg m
      | none => .error (.unboundVariable id) m := by
  show ((match m.bindings[id]? with
    | some arg => pure arg
    | none => throw (.unboundVariable id)) : EvalM Expr).run m = _
  cases m.bindings[id]? <;> rfl

/-- A step runs as a step, if the loops that it starts run as loops. -/
theorem follows_stepWith {run : (target : Target) → Expr → EvalM target.Result}
    (hrun : ∀ target expr, Follows (.loop target expr) target.toExpr (run target expr))
    (expr : Expr) : Follows (.step expr) id (expr.stepWith run) := by
  induction expr with
  | lit value => exact Follows.countStep fun pending m => ⟨[], .lit value, rfl⟩
  | lam binder body => exact Follows.countStep fun pending m => ⟨[], .lam binder body, rfl⟩
  | var id =>
    refine Follows.countStep fun pending m => ⟨[], ?_⟩
    rw [run_lookup]
    cases hbound : m.bindings[id]? with
    | none => exact ⟨.varError hbound, rfl⟩
    | some arg => exact ⟨.var hbound, rfl⟩
  | unary op operand ih =>
    by_cases hlit : ∃ value, operand = .lit value
    · obtain ⟨value, rfl⟩ := hlit
      refine Follows.countStep fun pending m => ⟨[], ?_⟩
      obtain ⟨hout, hafter⟩ := outcome_ofExcept (op.eval value) m
      rw [hout, hafter]
      exact ⟨.unaryValue op value, rfl⟩
    · rw [Expr.stepWith_unary op fun value h => hlit ⟨value, h⟩]
      refine Follows.countStep fun pending m => ?_
      obtain ⟨log, hinner, hbetas⟩ := ih pending m
      have hunary := Run.unary op (fun value h => hlit ⟨value, h⟩) hinner
      refine ⟨log, ?_⟩
      cases hx : (operand.stepWith run).run m with
      | ok next m' =>
        rw [hx] at hunary hbetas
        rw [run_bind_of_ok hx]
        exact ⟨hunary, hbetas⟩
      | error error m' =>
        rw [hx] at hunary hbetas
        rw [run_bind_of_error hx]
        exact ⟨hunary, hbetas⟩
  | binary op left right ihl ihr =>
    cases op with
    | strict op =>
      refine Follows.countStep fun pending m => ?_
      obtain ⟨log, hleft, hbetas⟩ := hrun .value left (right :: pending) m
      cases hl : (run .value left).run m with
      | error error m₁ =>
        rw [hl] at hleft hbetas
        rw [run_bind_of_error hl]
        exact ⟨log, .strictLeft op hleft, hbetas⟩
      | ok a m₁ =>
        rw [hl] at hleft hbetas
        rw [run_bind_of_ok hl]
        obtain ⟨log', hright, hbetas'⟩ := hrun .value right pending m₁
        have hlength : (after ((run .value right).run m₁)).betas =
            m.betas + (log ++ log').length := by
          have hmid : m₁.betas = m.betas + log.length := hbetas
          rw [hbetas', hmid, List.length_append, Nat.add_assoc]
        refine ⟨log ++ log', ?_⟩
        cases hr : (run .value right).run m₁ with
        | error error m₂ =>
          rw [hr] at hright hlength
          rw [run_bind_of_error hr]
          exact ⟨.strictRight op hleft hright, hlength⟩
        | ok b m₂ =>
          rw [hr] at hright hlength
          rw [run_bind_of_ok hr]
          obtain ⟨hout, hafter⟩ := outcome_ofExcept (op.eval a b) m₂
          rw [hout, hafter]
          exact ⟨.strict op hleft hright, hlength⟩
    | apply =>
      refine Follows.countStep fun pending m => ?_
      obtain ⟨log, hhead, hbetas⟩ := hrun .headNormal left (right :: pending) m
      cases hf : (run .headNormal left).run m with
      | error error m' =>
        rw [hf] at hhead hbetas
        rw [run_bind_of_error hf]
        exact ⟨log, .applyError hhead, hbetas⟩
      | ok head m' =>
        rw [hf] at hhead hbetas
        rw [run_bind_of_ok hf]
        cases head with
        | lit value => exact ⟨log, .applyValue hhead, hbetas⟩
        | var id => exact ⟨log, .applyVar hhead, hbetas⟩
        | lam binder body =>
          refine ⟨log ++ [⟨pending, m'.bindings, binder, body, right⟩], .apply hhead, ?_⟩
          rw [List.length_append, List.length_singleton, ← Nat.add_assoc, ← hbetas]
          rfl
  | cond condition thenBranch elseBranch ihc iht ihe =>
    refine Follows.countStep fun pending m => ?_
    obtain ⟨log, hfirst, hbetas⟩ :=
      hrun .value condition (thenBranch :: elseBranch :: pending) m
    refine ⟨log, ?_⟩
    cases hc : (run .value condition).run m with
    | error error m' =>
      rw [hc] at hfirst hbetas
      rw [run_bind_of_error hc]
      exact ⟨.condError hfirst, hbetas⟩
    | ok value m' =>
      rw [hc] at hfirst hbetas
      rw [run_bind_of_ok hc]
      cases value with
      | bool b => cases b <;> exact ⟨.cond hfirst, hbetas⟩
      | str s => exact ⟨.condOther hfirst nofun, hbetas⟩
      | int n => exact ⟨.condOther hfirst nofun, hbetas⟩

theorem run_spend (limits : Limits) (target : Target) (m : Machine) :
    (spend limits target).run m =
      if m.remaining = 0 then .error (.outOfSteps target limits.iterations) m
      else .ok () { m with remaining := m.remaining - 1 } := by
  show ((if m.remaining = 0 then throw (.outOfSteps target limits.iterations)
    else set { m with remaining := m.remaining - 1 }) : EvalM Unit).run m = _
  split_ifs <;> rfl

theorem run_record (expr : Expr) (m : Machine) :
    (record expr).run m = .ok () (if m.loops = 1 then { m with trace := expr :: m.trace } else m) :=
  rfl

/-- What a loop does with an expression that it has stepped to. -/
def arrive (limits : Limits) (bound : Nat) (target : Target) (next : Expr) :
    EvalM target.Result := do
  record next
  match target.reach? next with
  | some result => return result
  | none => iterate limits bound target next

section

variable {target : Target} {m : Machine} {next : Expr}

/-- A loop without a step left gives up. -/
theorem run_iterate_of_spent (limits : Limits) (bound : Nat) (target : Target) (expr : Expr)
    (spent : m.remaining = 0) :
    (iterate limits bound target expr).run m = .error (.outOfSteps target limits.iterations) m := by
  cases bound with
  | zero => rfl
  | succ bound =>
    rw [iterate, EStateM.run_bind, run_spend, if_pos spent]

/-- A loop with a step left pays for it, takes it and sees where it has arrived. -/
theorem run_iterate_succ (limits : Limits) (bound : Nat) (target : Target) (expr : Expr)
    (paid : m.remaining ≠ 0) :
    (iterate limits (bound + 1) target expr).run m =
      ((expr.stepWith fun target expr => inLoop limits (iterate limits bound target expr)) >>=
        arrive limits bound target).run { m with remaining := m.remaining - 1 } := by
  rw [iterate, EStateM.run_bind, run_spend, if_neg paid]
  rfl

theorem run_arrive_of_reach {result : target.Result} (limits : Limits) (bound : Nat) (m : Machine)
    (reached : target.reach? next = some result) :
    ∃ trace, (arrive limits bound target next).run m = .ok result { m with trace } := by
  unfold arrive
  rw [run_bind_of_ok (run_record next m), reached]
  split_ifs
  · exact ⟨_, rfl⟩
  · exact ⟨m.trace, rfl⟩

theorem run_arrive_of_not_reach (limits : Limits) (bound : Nat) (m : Machine)
    (short : target.reach? next = none) :
    ∃ trace, (arrive limits bound target next).run m =
      (iterate limits bound target next).run { m with trace } := by
  unfold arrive
  rw [run_bind_of_ok (run_record next m), short]
  split_ifs
  · exact ⟨_, rfl⟩
  · exact ⟨m.trace, rfl⟩

end

theorem follows_iterate (limits : Limits) (bound : Nat) (target : Target) (expr : Expr) :
    Follows (.loop target expr) target.toExpr (iterate limits bound target expr) := by
  induction bound generalizing target expr with
  | zero => exact fun pending m => ⟨[], .limit target expr rfl, rfl⟩
  | succ bound ih =>
    -- The bound is that of the loops inside the step as well as of the rest of this loop.
    intro pending m
    by_cases hspent : m.remaining = 0
    · rw [run_iterate_of_spent limits (bound + 1) target expr hspent]
      exact ⟨[], .limit target expr rfl, rfl⟩
    have hstep := follows_stepWith (fun target expr => (ih target expr).inLoop limits) expr
    obtain ⟨log, hrun, hbetas⟩ := hstep pending { m with remaining := m.remaining - 1 }
    rw [run_iterate_succ limits bound target expr hspent]
    cases hx : (expr.stepWith fun target expr =>
        inLoop limits (iterate limits bound target expr)).run
        { m with remaining := m.remaining - 1 } with
    | error error m' =>
      rw [hx] at hrun hbetas
      rw [run_bind_of_error hx]
      exact ⟨log, .stepError hrun, hbetas⟩
    | ok next m' =>
      rw [hx] at hrun hbetas
      rw [run_bind_of_ok hx]
      -- The trace is no part of what a run keeps.
      cases hreach : target.reach? next with
      | some result =>
        obtain ⟨trace, harrive⟩ := run_arrive_of_reach limits bound m' hreach
        rw [harrive]
        have hloop : Run pending (.loop target expr) m.bindings log (.ok (target.toExpr result))
            m'.bindings := by
          rw [Target.toExpr_of_reach? hreach]
          exact .reach hrun (by rw [hreach, Option.isSome_some])
        exact ⟨log, hloop, hbetas⟩
      | none =>
        obtain ⟨trace, harrive⟩ := run_arrive_of_not_reach limits bound m' hreach
        rw [harrive]
        obtain ⟨log', hrest, hlength⟩ := ih target next pending { m' with trace }
        refine ⟨log ++ log', .next hrun hreach hrest, ?_⟩
        rw [List.length_append, ← Nat.add_assoc, ← hbetas]
        exact hlength

/-- The loops that are started from outside run as loops. -/
theorem follows_runLoop (limits : Limits) (target : Target) (expr : Expr) :
    Follows (.loop target expr) target.toExpr (runLoop limits target expr) :=
  (follows_iterate limits limits.iterations target expr).inLoop limits

end EvalM

/-! ### Counting bindings -/

/-- Of a machine that started fresh: every argument that was bound is still there. -/
def Machine.NothingOverwritten (m : Machine) : Prop := m.bindings.size = m.betas

/-- Every binding makes the store larger, or overwrites. -/
theorem Run.size_add_overwrites {pending : List Expr} {task : Task} {store store' : Store}
    {log : List Binding} {outcome : Except EvalError Expr}
    (h : Run pending task store log outcome store') :
    store'.size + log.countP (·.Overwrites) = store.size + log.length := by
  induction h with
  | lit | lam | var | varError | unaryValue | limit => rfl
  | unary _ _ _ ih => exact ih
  | strict _ _ _ ih ih' | strictRight _ _ _ ih ih' | next _ _ _ ih ih' =>
    rw [List.countP_append, List.length_append]
    omega
  | strictLeft _ _ ih | applyVar _ ih | applyValue _ ih | applyError _ ih | cond _ ih
  | condOther _ _ ih | condError _ ih | stepError _ ih | reach _ _ ih => exact ih
  | @apply pending store log store' binder body fn arg _ ih =>
    rw [List.countP_append, List.length_append, List.countP_singleton, List.length_singleton,
      Std.TreeMap.size_insert]
    by_cases hmem : (Binding.mk pending store' binder body arg).Overwrites
    · rw [if_pos (Std.TreeMap.contains_iff_mem.2 hmem), if_pos (decide_eq_true hmem)]
      omega
    · rw [if_neg fun h => hmem (Std.TreeMap.contains_iff_mem.1 h),
        if_neg fun h => hmem (of_decide_eq_true h)]
      omega

/-- A computation on a fresh machine is a run from the empty store, and the counts of the machine
tell whether a binding has overwritten another. -/
theorem EvalM.Follows.run_of_fresh {α : Type} {task : Task} {toExpr : α → Expr} {x : EvalM α}
    (h : Follows task toExpr x) :
    ∃ log, Run [] task ∅ log (outcome toExpr (x.run {})) (after (x.run {})).bindings ∧
      ((after (x.run {})).NothingOverwritten ↔ ∀ binding ∈ log, ¬ binding.Overwrites) := by
  obtain ⟨log, hrun, hbetas⟩ := h [] {}
  refine ⟨log, hrun, ?_⟩
  have hsize := hrun.size_add_overwrites
  have hempty : (({} : Machine).bindings).size = 0 := rfl
  have hzero : (∀ binding ∈ log, ¬ binding.Overwrites) ↔ log.countP (·.Overwrites) = 0 := by
    simp only [List.countP_eq_zero, decide_eq_true_eq]
  have hbetas' : (after (x.run {})).betas = log.length := by
    rw [hbetas]
    exact Nat.zero_add _
  rw [hzero, Machine.NothingOverwritten, hbetas']
  omega

end Lambda94
