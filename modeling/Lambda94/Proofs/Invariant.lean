import Lambda94.Proofs.FlatStore
import Lambda94.Proofs.Moves
import Lambda94.Proofs.OperatorError
import Mathlib.Logic.Relation

/-!
# Invariants of the machine

A property of expressions in a store that every way to make an expression keeps (`Invariant`) holds
of all that a machine ever works on, if it holds of the program: of what a run ends with and of all
arguments (`Run.upheld`), of what is in progress at any time during a run (`Job.upheld_of_comesTo`),
and, from one call to the next, of all that was returned (`Driven.upheld`).  A run that meets an
unbound variable meets it as an expression with the property.

The jobs that one job comes to are the steps and loops inside it.  Every binding is made by one that
steps an application: `Run.applies_of_mem`.
-/

namespace Lambda94

/-- The store has the property of all its arguments. -/
def Store.Keeps (I : Store → Expr → Prop) (store : Store) : Prop :=
  ∀ (id : Int) (arg : Expr), store[id]? = some arg → I store arg

/-- A property of expressions in a store that goes from an expression to its parts and back, from
operands to results, and from a function and an argument to the body with the argument bound. -/
structure Invariant (I : Store → Expr → Prop) : Prop where
  unary_iff {store : Store} {op : UnaryOp} {operand : Expr} :
    I store (.unary op operand) ↔ I store operand
  binary_iff {store : Store} {op : BinaryOp} {left right : Expr} :
    I store (.binary op left right) ↔ I store left ∧ I store right
  of_cond {store : Store} {c t e : Expr} (h : I store (.cond c t e)) :
    I store c ∧ I store t ∧ I store e
  unaryValue {store : Store} {op : UnaryOp} {value result : Value}
    (applied : op.eval value = .ok result) (h : I store (.lit value)) : I store (.lit result)
  strictValue {store : Store} {op : StrictOp} {a b result : Value}
    (applied : op.eval a b = .ok result) (ha : I store (.lit a)) (hb : I store (.lit b)) :
    I store (.lit result)
  kept {store : Store} {binder : Int} {arg expr : Expr} (harg : I store arg) (h : I store expr) :
    I (store.insert binder arg) expr
  body {store : Store} {binder : Int} {body arg : Expr} (h : I store (.lam binder body))
    (harg : I store arg) : I (store.insert binder arg) body

variable {I : Store → Expr → Prop}

theorem Store.Keeps.insert {store : Store} (hI : Invariant I) (arguments : store.Keeps I)
    {arg : Expr} (harg : I store arg) (binder : Int) : Store.Keeps I (store.insert binder arg) := by
  intro id arg' bound
  by_cases hid : id = binder
  · rw [hid, Store.getElem?_insert_self] at bound
    exact Option.some.inj bound ▸ hI.kept harg harg
  · rw [Store.getElem?_insert_of_ne _ _ hid] at bound
    exact hI.kept harg (arguments id arg' bound)

/-! ### Runs -/

/-- What a run ends with has the property; a variable that was not bound had it too. -/
def Upholds (I : Store → Expr → Prop) (store : Store) : Except EvalError Expr → Prop
  | .ok next => I store next
  | .error error => ∀ id, error = .unboundVariable id →
    ∃ store : Store, I store (.var id) ∧ store[id]? = none

theorem Upholds.of_ne {store : Store} {error : EvalError}
    (h : ∀ id, error ≠ .unboundVariable id) : Upholds I store (.error error) :=
  fun id hid => absurd hid (h id)

theorem Upholds.of_operator {store : Store} {x : Except EvalError Value}
    (fails : FailsOnly EvalError.OfOperator x) (h : ∀ value, x = .ok value → I store (.lit value)) :
    Upholds I store (x.map .lit) := by
  cases x with
  | ok value => exact h value rfl
  | error error =>
    refine .of_ne fun id hid => ?_
    cases hid ▸ fails error rfl

/-- A run that leads from one store to another keeps the property. -/
structure Upheld (I : Store → Expr → Prop) (store store' : Store)
    (outcome : Except EvalError Expr) : Prop where
  arguments : store'.Keeps I
  kept : ∀ expr, I store expr → I store' expr
  outcome : Upholds I store' outcome

theorem Upheld.of_same {store : Store} {outcome : Except EvalError Expr}
    (arguments : store.Keeps I) (h : Upholds I store outcome) : Upheld I store store outcome :=
  ⟨arguments, fun _ => id, h⟩

/-- One run after another. -/
theorem Upheld.trans {store store₁ store₂ : Store} {first outcome : Except EvalError Expr}
    (h : Upheld I store store₁ first) (h' : Upheld I store₁ store₂ outcome) :
    Upheld I store store₂ outcome :=
  ⟨h'.arguments, fun expr hexpr => h'.kept expr (h.kept expr hexpr), h'.outcome⟩

/-- A run that ends with something else. -/
theorem Upheld.ending {store store' : Store} {outcome outcome' : Except EvalError Expr}
    (h : Upheld I store store' outcome) (h' : Upholds I store' outcome') :
    Upheld I store store' outcome' :=
  ⟨h.arguments, h.kept, h'⟩

/-- The step that binds. -/
theorem Upheld.apply {store store' : Store} {binder : Int} {body arg : Expr} (hI : Invariant I)
    (h : Upheld I store store' (.ok (.lam binder body))) (harg : I store arg) :
    Upheld I store (store'.insert binder arg) (.ok body) where
  arguments := h.arguments.insert hI (h.kept arg harg) binder
  kept expr hexpr := hI.kept (h.kept arg harg) (h.kept expr hexpr)
  outcome := hI.body h.outcome (h.kept arg harg)

/-- A run keeps an invariant, whatever waits for it. -/
theorem Run.upheld {pending : List Expr} {task : Task} {store store' : Store} {log : List Binding}
    {outcome : Except EvalError Expr} (hI : Invariant I)
    (h : Run pending task store log outcome store') (arguments : store.Keeps I)
    (hexpr : I store task.expr) : Upheld I store store' outcome := by
  induction h with
  | lit | lam => exact .of_same arguments hexpr
  | var bound => exact .of_same arguments (arguments _ _ bound)
  | varError unbound =>
    refine .of_same arguments ?_
    rintro _ ⟨⟩
    exact ⟨_, hexpr, unbound⟩
  | unaryValue op value =>
    exact .of_same arguments (.of_operator (op.failsOnly_eval value) fun _ applied =>
      hI.unaryValue applied (hI.unary_iff.1 hexpr))
  | @unary _ _ _ outcome _ op _ _ _ ih =>
    have hinner := ih arguments (hI.unary_iff.1 hexpr)
    refine hinner.ending ?_
    cases outcome with
    | ok next => exact hI.unary_iff.2 hinner.outcome
    | error error => exact hinner.outcome
  | strict op _ _ ih ih' =>
    obtain ⟨hleft, hright⟩ := hI.binary_iff.1 hexpr
    have hfirst := ih arguments hleft
    have hsecond := ih' hfirst.arguments (hfirst.kept _ hright)
    exact (hfirst.trans hsecond).ending (.of_operator (op.failsOnly_eval _ _) fun _ applied =>
      hI.strictValue applied (hsecond.kept _ hfirst.outcome) hsecond.outcome)
  | strictLeft op _ ih => exact ih arguments (hI.binary_iff.1 hexpr).1
  | strictRight op _ _ ih ih' =>
    obtain ⟨hleft, hright⟩ := hI.binary_iff.1 hexpr
    have hfirst := ih arguments hleft
    exact hfirst.trans (ih' hfirst.arguments (hfirst.kept _ hright))
  | apply _ ih =>
    obtain ⟨hfn, harg⟩ := hI.binary_iff.1 hexpr
    exact (ih arguments hfn).apply hI harg
  | applyVar _ ih =>
    obtain ⟨hfn, harg⟩ := hI.binary_iff.1 hexpr
    have hhead := ih arguments hfn
    exact hhead.ending (hI.binary_iff.2 ⟨hhead.outcome, hhead.kept _ harg⟩)
  | applyValue _ ih => exact (ih arguments (hI.binary_iff.1 hexpr).1).ending (.of_ne nofun)
  | applyError _ ih => exact ih arguments (hI.binary_iff.1 hexpr).1
  | @cond _ _ _ _ b _ _ _ _ ih =>
    obtain ⟨hcondition, hthen, helse⟩ := hI.of_cond hexpr
    have hfirst := ih arguments hcondition
    refine hfirst.ending ?_
    cases b with
    | true => exact hfirst.kept _ hthen
    | false => exact hfirst.kept _ helse
  | condOther _ _ ih => exact (ih arguments (hI.of_cond hexpr).1).ending (.of_ne nofun)
  | condError _ ih => exact ih arguments (hI.of_cond hexpr).1
  | limit target expr limited =>
    refine .of_same arguments (.of_ne fun id hid => ?_)
    rw [hid] at limited
    cases limited
  | stepError _ ih | reach _ _ ih => exact ih arguments hexpr
  | next _ _ _ ih ih' =>
    have hstep := ih arguments hexpr
    exact hstep.trans (ih' hstep.arguments hstep.outcome)

/-! ### During a run -/

/-- A step or a loop that a machine is about to begin. -/
structure Job where
  /-- What waits for the loops in progress. -/
  pending : List Expr
  task : Task
  store : Store

namespace Job

/-- The steps and loops of which a job consists.  The second operand of a strict operator and the
further steps of a loop begin when what is before them has ended. -/
inductive Starts : Job → Job → Prop
  | operand {pending : List Expr} {store : Store} (op : UnaryOp) {operand : Expr}
    (stuck : ∀ value, operand ≠ .lit value) :
    Starts ⟨pending, .step (.unary op operand), store⟩ ⟨pending, .step operand, store⟩
  | left {pending : List Expr} {store : Store} (op : StrictOp) (left right : Expr) :
    Starts ⟨pending, .step (.binary (.strict op) left right), store⟩
      ⟨right :: pending, .loop .value left, store⟩
  | right {pending : List Expr} {store store₁ : Store} {log : List Binding} {a : Value}
    (op : StrictOp) {left right : Expr}
    (first : Run (right :: pending) (.loop .value left) store log (.ok (.lit a)) store₁) :
    Starts ⟨pending, .step (.binary (.strict op) left right), store⟩
      ⟨pending, .loop .value right, store₁⟩
  | head {pending : List Expr} {store : Store} (fn arg : Expr) :
    Starts ⟨pending, .step (.app fn arg), store⟩ ⟨arg :: pending, .loop .headNormal fn, store⟩
  | condition {pending : List Expr} {store : Store} (condition thenBranch elseBranch : Expr) :
    Starts ⟨pending, .step (.cond condition thenBranch elseBranch), store⟩
      ⟨thenBranch :: elseBranch :: pending, .loop .value condition, store⟩
  | first {pending : List Expr} {store : Store} (target : Target) (expr : Expr) :
    Starts ⟨pending, .loop target expr, store⟩ ⟨pending, .step expr, store⟩
  | again {pending : List Expr} {store store₁ : Store} {log : List Binding} {target : Target}
    {expr next : Expr} (step : Run pending (.step expr) store log (.ok next) store₁)
    (short : target.reach? next = none) :
    Starts ⟨pending, .loop target expr, store⟩ ⟨pending, .loop target next, store₁⟩

/-- Doing the first job, the machine comes to begin the second. -/
abbrev ComesTo : Job → Job → Prop := Relation.ReflTransGen Starts

/-- All that the job works on has the property: the arguments, the expression in progress and what
waits. -/
structure Upheld (I : Store → Expr → Prop) (job : Job) : Prop where
  arguments : job.store.Keeps I
  expr : I job.store job.task.expr
  pending : ∀ waiting ∈ job.pending, I job.store waiting

theorem Upheld.waiting {pending : List Expr} {task : Task} {store : Store}
    (h : Job.Upheld I ⟨pending, task, store⟩) {expr : Expr} (hexpr : I store expr) :
    ∀ waiting ∈ expr :: pending, I store waiting :=
  List.forall_mem_cons.2 ⟨hexpr, h.pending⟩

/-- What a job starts keeps an invariant. -/
theorem Starts.upheld {job job' : Job} (hI : Invariant I) (h : job.Starts job')
    (hjob : job.Upheld I) : job'.Upheld I := by
  cases h with
  | operand op stuck => exact ⟨hjob.arguments, hI.unary_iff.1 hjob.expr, hjob.pending⟩
  | left op left right =>
    obtain ⟨hleft, hright⟩ := hI.binary_iff.1 hjob.expr
    exact ⟨hjob.arguments, hleft, hjob.waiting hright⟩
  | right op first =>
    obtain ⟨hleft, hright⟩ := hI.binary_iff.1 hjob.expr
    have hfirst := first.upheld hI hjob.arguments hleft
    exact ⟨hfirst.arguments, hfirst.kept _ hright,
      fun waiting mem => hfirst.kept _ (hjob.pending waiting mem)⟩
  | head fn arg =>
    obtain ⟨hfn, harg⟩ := hI.binary_iff.1 hjob.expr
    exact ⟨hjob.arguments, hfn, hjob.waiting harg⟩
  | condition c t e =>
    obtain ⟨hcondition, hthen, helse⟩ := hI.of_cond hjob.expr
    exact ⟨hjob.arguments, hcondition, List.forall_mem_cons.2 ⟨hthen, hjob.waiting helse⟩⟩
  | first target expr => exact ⟨hjob.arguments, hjob.expr, hjob.pending⟩
  | again step short =>
    have hstep := step.upheld hI hjob.arguments hjob.expr
    exact ⟨hstep.arguments, hstep.outcome,
      fun waiting mem => hstep.kept _ (hjob.pending waiting mem)⟩

theorem upheld_of_comesTo {job job' : Job} (hI : Invariant I) (h : job.ComesTo job')
    (hjob : job.Upheld I) : job'.Upheld I := by
  induction h with
  | refl => exact hjob
  | tail _ starts ih => exact starts.upheld hI ih

end Job

/-- Doing the job, the machine comes to step the application whose argument is bound; its function
comes to be that of the binding. -/
def Job.Applies (job : Job) (binding : Binding) : Prop :=
  ∃ fn store log, job.ComesTo ⟨binding.pending, .step (.app fn binding.arg), store⟩ ∧
    Run (binding.arg :: binding.pending) (.loop .headNormal fn) store log
      (.ok (.lam binding.binder binding.body)) binding.store

theorem Job.Starts.applies {job job' : Job} {binding : Binding} (starts : job.Starts job') :
    job'.Applies binding → job.Applies binding := by
  rintro ⟨fn, store, log, comes, head⟩
  exact ⟨fn, store, log, .head starts comes, head⟩

/-- Every binding of a run is made by a step of an application. -/
theorem Run.applies_of_mem {pending : List Expr} {task : Task} {store store' : Store}
    {log : List Binding} {outcome : Except EvalError Expr} {binding : Binding}
    (h : Run pending task store log outcome store') (mem : binding ∈ log) :
    Job.Applies ⟨pending, task, store⟩ binding := by
  induction h with
  | lit | lam | var | varError | unaryValue | limit => exact absurd mem List.not_mem_nil
  | unary op stuck _ ih => exact (Job.Starts.operand op stuck).applies (ih mem)
  | strict op first _ ih ih' | strictRight op first _ ih ih' =>
    rcases List.mem_append.1 mem with mem | mem
    · exact (Job.Starts.left op _ _).applies (ih mem)
    · exact (Job.Starts.right op first).applies (ih' mem)
  | strictLeft op _ ih => exact (Job.Starts.left op _ _).applies (ih mem)
  | @apply pending store log store' binder body fn arg head ih =>
    rcases List.mem_append.1 mem with mem | mem
    · exact (Job.Starts.head fn arg).applies (ih mem)
    · obtain rfl := List.mem_singleton.1 mem
      exact ⟨fn, store, log, .refl, head⟩
  | applyVar _ ih | applyValue _ ih | applyError _ ih =>
    exact (Job.Starts.head _ _).applies (ih mem)
  | cond _ ih | condOther _ _ ih | condError _ ih =>
    exact (Job.Starts.condition _ _ _).applies (ih mem)
  | stepError _ ih | reach _ _ ih => exact (Job.Starts.first _ _).applies (ih mem)
  | next first short _ ih ih' =>
    rcases List.mem_append.1 mem with mem | mem
    · exact (Job.Starts.first _ _).applies (ih mem)
    · exact (Job.Starts.again first short).applies (ih' mem)

/-- The function and the argument of a binding have the property. -/
theorem Run.upheld_of_mem {pending : List Expr} {task : Task} {store store' : Store}
    {log : List Binding} {outcome : Except EvalError Expr} {binding : Binding} (hI : Invariant I)
    (h : Run pending task store log outcome store') (hjob : Job.Upheld I ⟨pending, task, store⟩)
    (mem : binding ∈ log) :
    I binding.store (.lam binding.binder binding.body) ∧ I binding.store binding.arg := by
  obtain ⟨fn, store₀, log₀, comes, head⟩ := h.applies_of_mem mem
  have hstep := Job.upheld_of_comesTo hI comes hjob
  obtain ⟨hfn, harg⟩ := hI.binary_iff.1 hstep.expr
  have hhead := head.upheld hI hstep.arguments hfn
  exact ⟨hhead.outcome, hhead.kept _ harg⟩

/-! ### From call to call -/

@[simp] theorem Move.expr_task (move : Move) (expr : Expr) : (move.task expr).expr = expr := by
  cases move <;> rfl

/-- What a call begins with. -/
theorem Job.upheld_of_call {m : Machine} {expr : Expr} (arguments : Store.Keeps I m.bindings)
    (hexpr : I m.bindings expr) (move : Move) :
    Job.Upheld I ⟨[], move.task expr, m.bindings⟩ :=
  ⟨arguments, by rwa [Move.expr_task], fun _ waiting => absurd waiting List.not_mem_nil⟩

/-- A call keeps an invariant. -/
theorem Move.upheld {m : Machine} {expr : Expr} (hI : Invariant I)
    (arguments : Store.Keeps I m.bindings) (hexpr : I m.bindings expr) (limits : Limits)
    (move : Move) :
    Upheld I m.bindings (EvalM.after ((move.run limits expr).run m)).bindings
      (EvalM.outcome id ((move.run limits expr).run m)) := by
  obtain ⟨log, hrun, -⟩ := move.follows_run limits expr [] m
  exact hrun.upheld hI arguments (by rwa [Move.expr_task])

theorem Upheld.of_mem_returned {store : Store} {r : EStateM.Result EvalError Machine Expr}
    (h : Upheld I store (EvalM.after r).bindings (EvalM.outcome id r)) {expr : Expr}
    (mem : expr ∈ returned r) : I (EvalM.after r).bindings expr := by
  cases r with
  | ok next m => exact List.mem_singleton.1 mem ▸ h.outcome
  | error error m => exact absurd mem List.not_mem_nil

/-- An invariant of a program holds of all that was returned and of all arguments, however the
machine was driven. -/
theorem Driven.upheld {limits : Limits} {program : Expr} {m : Machine} {held : List Expr}
    (hI : Invariant I) (driven : Driven limits program m held) (hprogram : I ∅ program) :
    Store.Keeps I m.bindings ∧ ∀ expr ∈ held, I m.bindings expr := by
  induction driven with
  | fresh =>
    refine ⟨fun id arg bound => ?_, fun expr mem => List.mem_singleton.1 mem ▸ hprogram⟩
    cases bound
  | call _ move mem ih =>
    obtain ⟨arguments, hheld⟩ := ih
    have hcall := move.upheld hI arguments (hheld _ mem) limits
    refine ⟨hcall.arguments, fun expr' mem' => ?_⟩
    rcases List.mem_append.1 mem' with mem' | mem'
    · exact hcall.of_mem_returned mem'
    · exact hcall.kept _ (hheld expr' mem')

end Lambda94
