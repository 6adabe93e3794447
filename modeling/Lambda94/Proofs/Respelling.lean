import Lambda94.Proofs.Simulation

/-!
# Literals and negations

A negative integer can be written as a literal or as the negation of one.  Expressions that differ in
that only have the same values and the same errors: `evaluate_of_respelled`.  They do not take the
same steps.  A negation under unary operators takes a step of its own (`Expr.Behind`), and where an
argument, a branch or a body turns out to be a negation, the loop goes on for a step after it would
have reached a literal.  So the two machines do not keep step, but the second needs no more than three
steps for each of the first, and the relation is symmetric.
-/

namespace Lambda94

/-! ### Writing integers in another way -/

/-- The expressions are the same but for integers that one of them has as a literal and the other as
the negation of a literal. -/
inductive Expr.Respelled : Expr → Expr → Prop
  | lit (value : Value) : Respelled (.lit value) (.lit value)
  | negation (n : Int) : Respelled (.lit (.int (wrap (-n)))) (.unary .negate (.lit (.int n)))
  | literal (n : Int) : Respelled (.unary .negate (.lit (.int n))) (.lit (.int (wrap (-n))))
  | unary {operand operand' : Expr} (op : UnaryOp) (h : Respelled operand operand') :
    Respelled (.unary op operand) (.unary op operand')
  | binary {left left' right right' : Expr} (op : BinaryOp) (hleft : Respelled left left')
    (hright : Respelled right right') : Respelled (.binary op left right) (.binary op left' right')
  | cond {condition condition' thenBranch thenBranch' elseBranch elseBranch' : Expr}
    (hcondition : Respelled condition condition') (hthen : Respelled thenBranch thenBranch')
    (helse : Respelled elseBranch elseBranch') :
    Respelled (.cond condition thenBranch elseBranch) (.cond condition' thenBranch' elseBranch')
  | lam {body body' : Expr} (binder : Int) (h : Respelled body body') :
    Respelled (.lam binder body) (.lam binder body')
  | var (id : Int) : Respelled (.var id) (.var id)

namespace Expr

theorem Respelled.refl (expr : Expr) : expr.Respelled expr := by
  induction expr with
  | lit value => exact .lit value
  | unary op operand ih => exact .unary op ih
  | binary op left right ihl ihr => exact .binary op ihl ihr
  | cond c t e ihc iht ihe => exact .cond ihc iht ihe
  | lam binder body ih => exact .lam binder ih
  | var id => exact .var id

theorem Respelled.symm {expr expr' : Expr} (h : expr.Respelled expr') : expr'.Respelled expr := by
  induction h with
  | lit value => exact .lit value
  | negation n => exact .literal n
  | literal n => exact .negation n
  | unary op _ ih => exact .unary op ih
  | binary op _ _ ihl ihr => exact .binary op ihl ihr
  | cond _ _ _ ihc iht ihe => exact .cond ihc iht ihe
  | lam binder _ ih => exact .lam binder ih
  | var id => exact .var id

theorem congruence_respelled : Congruence Respelled where
  lit := .lit
  unary := .unary
  binary := .binary
  lam := .lam
  var := .var

/-- The second expression is the first with a negation of a literal, under unary operators, carried
out: the first one is a step behind. -/
inductive Behind : Expr → Expr → Prop
  | negation (op : UnaryOp) (n : Int) :
    Behind (.unary op (.unary .negate (.lit (.int n)))) (.unary op (.lit (.int (wrap (-n)))))
  | unary {operand operand' : Expr} (op : UnaryOp) (h : Behind operand operand') :
    Behind (.unary op operand) (.unary op operand')

variable {behind ahead : Expr}

theorem Behind.ne_lit (h : Behind behind ahead) (value : Value) : behind ≠ .lit value := by
  cases h <;> nofun

theorem Behind.reach?_ahead (h : Behind behind ahead) (target : Target) :
    target.reach? ahead = none := by
  cases target <;> cases h <;> rfl

theorem Behind.alike_ahead (h : Behind behind ahead) : Alike Respelled ahead ahead := by
  induction h with
  | negation op n => exact (Alike.lit _).under op
  | unary op _ ih => exact ih.under op

/-- An expression that is behind catches up in one step, without help from loops. -/
theorem Behind.run_stepWith (h : Behind behind ahead)
    (run : (target : Target) → Expr → EvalM target.Result) (m : Machine) :
    ∃ steps, (behind.stepWith run).run m = .ok ahead { m with steps } := by
  induction h generalizing m with
  | negation op n => exact ⟨m.steps + 1 + 1, rfl⟩
  | @unary operand _ op h ih =>
    obtain ⟨steps, hstep⟩ := ih { m with steps := m.steps + 1 }
    refine ⟨steps, ?_⟩
    rw [stepWith_unary op h.ne_lit]
    show (operand.stepWith run >>= fun next => pure (Expr.unary op next)).run
      { m with steps := m.steps + 1 } = _
    rw [run_bind_of_ok hstep]
    rfl

/-- Two expressions that step to expressions that are the same but for the way their integers are
written. -/
inductive Level : Expr → Expr → Prop
  | negation (n : Int) : Level (.lit (.int (wrap (-n)))) (.unary .negate (.lit (.int n)))
  | literal (n : Int) : Level (.unary .negate (.lit (.int n))) (.lit (.int (wrap (-n))))
  | alike {expr expr' : Expr} (h : Alike Respelled expr expr') : Level expr expr'

/-- One of the two expressions is behind, or they are level. -/
theorem Respelled.behind_or_level {expr expr' : Expr} (h : expr.Respelled expr') :
    Behind expr' expr ∨ Behind expr expr' ∨ Level expr expr' := by
  induction h with
  | lit value => exact .inr (.inr (.alike (.lit value)))
  | negation n => exact .inr (.inr (.negation n))
  | literal n => exact .inr (.inr (.literal n))
  | binary op hleft hright => exact .inr (.inr (.alike (.binary op hleft hright)))
  | cond hcondition hthen helse => exact .inr (.inr (.alike (.cond hcondition hthen helse)))
  | lam binder h => exact .inr (.inr (.alike (.lam binder h)))
  | var id => exact .inr (.inr (.alike (.var id)))
  | @unary operand operand' op h ih =>
    rcases ih with hbehind | hbehind | hlevel
    · exact .inl (.unary op hbehind)
    · exact .inr (.inl (.unary op hbehind))
    -- Under an operator, the two ways to write an integer are no longer level.
    cases hlevel with
    | negation n => exact .inl (.negation op n)
    | literal n => exact .inr (.inl (.negation op n))
    | alike halike => exact .inr (.inr (.alike (halike.under op)))

end Expr

/-! ### Machines that do not keep step -/

open EvalM

/-- The arguments are the same but for the way their integers are written, `loops` loops are in
progress, and the second machine has three times the budget of the first and `reserve` steps more. -/
structure Machine.Respelled (loops reserve : Nat) (m m' : Machine) : Prop where
  arguments (id : Int) : Option.Rel Expr.Respelled m.bindings[id]? m'.bindings[id]?
  loops_eq : m.loops = loops
  loops_eq' : m'.loops = loops
  budget : 3 * m.remaining + reserve ≤ m'.remaining

/-- The limits with three times as many steps. -/
def Limits.thrice (limits : Limits) : Limits := { limits with iterations := 3 * limits.iterations }

theorem couples_respelled (loops reserve : Nat) :
    Couples Expr.Respelled (Machine.Respelled loops reserve) where
  arguments h := h.arguments
  countStep h := ⟨h.arguments, h.loops_eq, h.loops_eq', h.budget⟩
  bindArg := by
    intro m m' h binder arg arg' args
    refine ⟨fun id => ?_, h.loops_eq, h.loops_eq', h.budget⟩
    show Option.Rel Expr.Respelled (m.bindings.insert binder arg)[id]?
      (m'.bindings.insert binder arg')[id]?
    by_cases hid : id = binder
    · rw [hid, Store.getElem?_insert_self, Store.getElem?_insert_self]
      exact .some args
    · rw [Store.getElem?_insert_of_ne _ _ hid, Store.getElem?_insert_of_ne _ _ hid]
      exact h.arguments id

/-- Outside a loop there is a step in reserve for each loop in progress, and so there is inside, for
all but the innermost one. -/
theorem encloses_respelled {limits limits' : Limits} (le : limits.thrice ≤ limits') (loops : Nat) :
    Encloses limits limits' (Machine.Respelled loops loops)
      (Machine.Respelled (loops + 1) loops) where
  depth := le.2.1
  frames := le.2.2
  loops h := h.loops_eq'.trans h.loops_eq.symm
  outermost h idle := by
    obtain rfl : loops = 0 := h.loops_eq.symm.trans idle
    exact ⟨h.arguments, rfl, rfl, le.1⟩
  inner h _ := ⟨h.arguments, congrArg (· + 1) h.loops_eq, congrArg (· + 1) h.loops_eq', h.budget⟩
  leave h := ⟨h.arguments, congrArg (· - 1) h.loops_eq, congrArg (· - 1) h.loops_eq', h.budget⟩

/-- Expressions that are level step to expressions that are the same but for the way their integers
are written. -/
theorem Expr.Level.simulates {loops reserve : Nat}
    {run run' : (target : Target) → Expr → EvalM target.Result}
    (hrun : ∀ target expr expr', Expr.Respelled expr expr' →
      Simulates (Machine.Respelled loops reserve) (target.Rel Expr.Respelled) (run target expr)
        (run' target expr'))
    {expr expr' : Expr} (h : Expr.Level expr expr') :
    Simulates (Machine.Respelled loops reserve) Expr.Respelled (expr.stepWith run)
      (expr'.stepWith run') := by
  cases h with
  | negation n | literal n =>
    exact (couples_respelled loops reserve).counting (.pure (.lit (.int (wrap (-n)))))
  | alike h => exact simulates_stepWith congruence_respelled (couples_respelled loops reserve) hrun h

namespace EvalM

variable {limits limits' : Limits} {bound bound' : Nat} {target : Target} {m m' : Machine}
  {expr next next' : Expr}

/-- The negation of a literal is a literal after one step. -/
theorem run_iterate_negation (limits : Limits) (bound : Nat) (target : Target) (n : Int)
    (paid : m.remaining ≠ 0) :
    ∃ steps trace, (iterate limits (bound + 1) target (.unary .negate (.lit (.int n)))).run m =
      .ok (target.ofValue (.int (wrap (-n))))
        { m with remaining := m.remaining - 1, steps, trace } := by
  have hstep : ((Expr.unary .negate (.lit (.int n))).stepWith
      fun target expr => inLoop limits (iterate limits bound target expr)).run
        { m with remaining := m.remaining - 1 } =
      .ok (.lit (.int (wrap (-n)))) { m with remaining := m.remaining - 1, steps := m.steps + 1 } :=
    rfl
  obtain ⟨trace, harrive⟩ := run_arrive_of_reach limits bound
    { m with remaining := m.remaining - 1, steps := m.steps + 1 } (target.reach?_lit _)
  exact ⟨m.steps + 1, trace, by rw [run_iterate_succ limits bound target _ paid,
    run_bind_of_ok hstep, harrive]⟩

end EvalM

/-- A loop at an expression that is behind catches up. -/
theorem Expr.Behind.run_iterate {behind ahead : Expr} (h : behind.Behind ahead) {m : Machine}
    (limits : Limits) (bound : Nat) (target : Target) (paid : m.remaining ≠ 0) :
    ∃ steps trace, (iterate limits (bound + 1) target behind).run m =
      (iterate limits bound target ahead).run
        { m with remaining := m.remaining - 1, steps, trace } := by
  obtain ⟨steps, hstep⟩ := h.run_stepWith
    (fun target expr => inLoop limits (iterate limits bound target expr))
    { m with remaining := m.remaining - 1 }
  obtain ⟨trace, harrive⟩ := run_arrive_of_not_reach limits bound
    { m with remaining := m.remaining - 1, steps } (h.reach?_ahead target)
  exact ⟨steps, trace, by rw [run_iterate_succ limits bound target behind paid,
    run_bind_of_ok hstep, harrive]⟩

/-! ### Loops -/

/-- Both loops reach their target, or neither does, or one of them is at a negation where the other
has reached a literal. -/
theorem Expr.Respelled.reach? {next next' : Expr} (h : next.Respelled next') (target : Target) :
    (∃ result result', target.reach? next = some result ∧ target.reach? next' = some result' ∧
      target.Rel Expr.Respelled result result') ∨
    (target.reach? next = none ∧ target.reach? next' = none) ∨
    (∃ n, next = .lit (.int (wrap (-n))) ∧ next' = .unary .negate (.lit (.int n))) ∨
    (∃ n, next = .unary .negate (.lit (.int n)) ∧ next' = .lit (.int (wrap (-n)))) := by
  cases h with
  | lit value =>
    exact .inl ⟨_, _, target.reach?_lit value, target.reach?_lit value, target.rel_ofValue value⟩
  | negation n => exact .inr (.inr (.inl ⟨n, rfl, rfl⟩))
  | literal n => exact .inr (.inr (.inr ⟨n, rfl, rfl⟩))
  | unary | binary | cond => cases target <;> exact .inr (.inl ⟨rfl, rfl⟩)
  | lam binder h =>
    cases target with
    | value => exact .inr (.inl ⟨rfl, rfl⟩)
    | headNormal => exact .inl ⟨_, _, rfl, rfl, .lam binder h⟩
  | var id =>
    cases target with
    | value => exact .inr (.inl ⟨rfl, rfl⟩)
    | headNormal => exact .inl ⟨_, _, rfl, rfl, .var id⟩

namespace EvalM

variable {limits limits' : Limits} {bound bound' loops : Nat} {target : Target} {m m' : Machine}
  {expr expr' next next' : Expr}

/-- Loops of at most `bound` steps are simulated by loops that may take three times as many. -/
def Alongside (limits limits' : Limits) (bound : Nat) : Prop :=
  ∀ (loops : Nat) (target : Target) (bound' : Nat) (expr expr' : Expr), 3 * bound ≤ bound' →
    expr.Respelled expr' →
    Simulates (Machine.Respelled (loops + 1) loops) (target.Rel Expr.Respelled)
      (iterate limits bound target expr) (iterate limits' bound' target expr')

/-- Where only one of the loops has reached its target, the other one does so in one more step. -/
theorem Alongside.arrive (h : Alongside limits limits' bound) (more : 3 * bound + 1 ≤ bound')
    (hnext : next.Respelled next') (hm : Machine.Respelled (loops + 1) (loops + 1) m m') :
    Ends (Machine.Respelled (loops + 1) loops) (target.Rel Expr.Respelled)
      ((EvalM.arrive limits bound target next).run m)
      ((EvalM.arrive limits' bound' target next').run m') := by
  obtain ⟨arguments, hloops, hloops', budget⟩ := hm
  rcases hnext.reach? target with ⟨result, result', reached, reached', results⟩ | ⟨short, short'⟩ |
    ⟨n, rfl, rfl⟩ | ⟨n, rfl, rfl⟩
  · obtain ⟨trace, hrun⟩ := run_arrive_of_reach limits bound m reached
    obtain ⟨trace', hrun'⟩ := run_arrive_of_reach limits' bound' m' reached'
    rw [hrun, hrun']
    exact .ok results ⟨arguments, hloops, hloops', by dsimp only; omega⟩
  · obtain ⟨trace, hrun⟩ := run_arrive_of_not_reach limits bound m short
    obtain ⟨trace', hrun'⟩ := run_arrive_of_not_reach limits' bound' m' short'
    rw [hrun, hrun']
    exact h loops target bound' next next' (by omega) hnext _ _
      ⟨arguments, hloops, hloops', by dsimp only; omega⟩
  · -- The second loop has a step left, for it had one in reserve.
    obtain ⟨trace, hrun⟩ := run_arrive_of_reach limits bound m (target.reach?_lit _)
    have short' : target.reach? (.unary .negate (.lit (.int n))) = none := by cases target <;> rfl
    obtain ⟨trace', hrun'⟩ := run_arrive_of_not_reach limits' bound' m' short'
    obtain ⟨bound', rfl⟩ : ∃ b, bound' = b + 1 := Nat.exists_eq_succ_of_ne_zero (by omega)
    have paid : ({ m' with trace := trace' } : Machine).remaining ≠ 0 := by dsimp only; omega
    obtain ⟨steps, trace'', hlast⟩ := run_iterate_negation limits' bound' target n paid
    rw [hrun, hrun', hlast]
    exact .ok (target.rel_ofValue _) ⟨arguments, hloops, hloops', by dsimp only; omega⟩
  · obtain ⟨trace', hrun'⟩ := run_arrive_of_reach limits' bound' m' (target.reach?_lit _)
    have short : target.reach? (.unary .negate (.lit (.int n))) = none := by cases target <;> rfl
    obtain ⟨trace, hrun⟩ := run_arrive_of_not_reach limits bound m short
    rw [hrun, hrun']
    by_cases spent : ({ m with trace } : Machine).remaining = 0
    · rw [run_iterate_of_spent limits bound target _ spent]
      exact .limit _ rfl _
    cases bound with
    | zero => exact .limit _ rfl _
    | succ bound =>
      obtain ⟨steps, trace'', hlast⟩ := run_iterate_negation limits bound target n spent
      rw [hlast]
      exact .ok (target.rel_ofValue _) ⟨arguments, hloops, hloops', by dsimp only; omega⟩

/-- Loops at level expressions, on machines that have paid for the next step and have a step in
reserve for each loop in progress. -/
theorem Alongside.level (le : limits.thrice ≤ limits') (h : Alongside limits limits' bound)
    (more : 3 * bound + 1 ≤ bound') (hlevel : Expr.Level expr expr') (paid : m.remaining ≠ 0)
    (paid' : m'.remaining ≠ 0)
    (hm : Machine.Respelled (loops + 1) (loops + 1) { m with remaining := m.remaining - 1 }
      { m' with remaining := m'.remaining - 1 }) :
    Ends (Machine.Respelled (loops + 1) loops) (target.Rel Expr.Respelled)
      ((iterate limits (bound + 1) target expr).run m)
      ((iterate limits' (bound' + 1) target expr').run m') := by
  have hinner : ∀ target expr expr', Expr.Respelled expr expr' →
      Simulates (Machine.Respelled (loops + 1) (loops + 1)) (target.Rel Expr.Respelled)
        (inLoop limits (iterate limits bound target expr))
        (inLoop limits' (iterate limits' bound' target expr')) := fun target expr expr' hexpr =>
    (encloses_respelled le (loops + 1)).inLoop
      (h (loops + 1) target bound' expr expr' (by omega) hexpr)
  rw [run_iterate_succ limits bound target expr paid,
    run_iterate_succ limits' bound' target expr' paid']
  refine (hlevel.simulates hinner _ _ hm).bind (fun m m' hm => ?_)
    fun next next' m m' hnext hm => h.arrive more hnext hm
  exact ⟨hm.arguments, hm.loops_eq, hm.loops_eq', Nat.le_of_succ_le hm.budget⟩

/-- Every loop is simulated: in an induction on the bound of the first loop, the second one keeps
three steps ahead for each step of the first. -/
theorem alongside (le : limits.thrice ≤ limits') (bound : Nat) : Alongside limits limits' bound := by
  induction bound with
  | zero => exact fun _ _ _ _ _ _ _ m _ _ => .limit m rfl _
  | succ bound ih =>
    intro loops target bound' expr expr' more hexpr m m' hm
    by_cases paid : m.remaining = 0
    · rw [run_iterate_of_spent limits (bound + 1) target expr paid]
      exact .limit m rfl _
    obtain ⟨bound', rfl⟩ : ∃ b, bound' = b + 1 + 1 := ⟨bound' - 2, by omega⟩
    obtain ⟨arguments, hloops, hloops', budget⟩ := hm
    have paid' : m'.remaining ≠ 0 := by omega
    rcases hexpr.behind_or_level with hbehind | hbehind | hlevel
    · -- The second loop catches up; it then has two steps left for the next step of the first.
      obtain ⟨steps, trace, hrun⟩ := hbehind.run_iterate limits' (bound' + 1) target paid'
      rw [hrun]
      exact ih.level le (by omega) (.alike hbehind.alike_ahead) paid (by dsimp only; omega)
        ⟨arguments, hloops, hloops', by dsimp only; omega⟩
    · -- The first loop catches up, while the second one stays where it is.
      obtain ⟨steps, trace, hrun⟩ := hbehind.run_iterate limits bound target paid
      rw [hrun]
      exact ih loops target _ expr' expr' (by omega) (.refl expr') _ _
        ⟨arguments, hloops, hloops', by dsimp only; omega⟩
    · exact ih.level le (by omega) hlevel paid paid'
        ⟨arguments, hloops, hloops', by dsimp only; omega⟩

end EvalM

/-- Expressions that are the same but for the way their integers are written have the same values
and the same errors on fresh machines, if the second one may take three times as many steps. -/
theorem evaluate_of_respelled {limits limits' : Limits} (le : limits.thrice ≤ limits')
    {expr expr' : Expr} (h : expr.Respelled expr') :
    (∀ value m, (expr.evaluate limits).run {} = .ok value m →
      ∃ m', (expr'.evaluate limits').run {} = .ok value m') ∧
    (∀ error m, (expr.evaluate limits).run {} = .error error m → error.isNonTermination = false →
      ∃ m', (expr'.evaluate limits').run {} = .error error m') := by
  have hsimulates : Simulates (Machine.Respelled 0 0) (Target.value.Rel Expr.Respelled)
      (expr.evaluate limits) (expr'.evaluate limits') :=
    (encloses_respelled le 0).inLoop (alongside le limits.iterations 0 .value _ _ _ le.1 h)
  have hend := hsimulates {} {} ⟨fun id => .none, rfl, rfl, Nat.le_refl 0⟩
  constructor
  · intro value m hrun
    rw [hrun] at hend
    obtain ⟨value', m', hrun', results, -⟩ := hend.of_ok
    obtain rfl : value = value' := results
    exact ⟨m', hrun'⟩
  · intro error m hrun settled
    rw [hrun] at hend
    obtain ⟨m', hrun', -⟩ := hend.of_error settled
    exact ⟨m', hrun'⟩

end Lambda94
