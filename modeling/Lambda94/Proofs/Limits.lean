import Lambda94.Proofs.Simulation

/-!
# Larger limits

The limits are no part of the meaning of programs: a loop that ends within some limits, with a
result or with an error that is not about the limits, ends in the same way within larger ones, and
leaves the same machine behind: `runLoop_of_le_limits`.  What is left of the budget is the only
difference, and no outermost loop looks at that.

`Carries` is what a relation between machines needs for a loop to simulate itself under it, when the
second machine has other limits, or other loops around it.
-/

namespace Lambda94

open EvalM

variable {limits limits' : Limits}

/-- The machines differ in the budget only, and the second has no less of it. -/
def Machine.Richer (m m' : Machine) : Prop :=
  ∃ remaining, m.remaining ≤ remaining ∧ m' = { m with remaining }

theorem Expr.congruence_eq : Expr.Congruence Eq where
  lit _ := rfl
  unary op h := congrArg (Expr.unary op) h
  binary op hleft hright := congrArg₂ (Expr.binary op) hleft hright
  lam binder h := congrArg (Expr.lam binder) h
  var _ := rfl

/-- Every expression looks like itself. -/
theorem Expr.alike_self (expr : Expr) : expr.Alike Eq expr := by
  induction expr with
  | lit value => exact .lit value
  | unary op operand ih => exact ih.under op
  | binary op left right => exact .binary op rfl rfl
  | cond condition thenBranch elseBranch => exact .cond rfl rfl rfl
  | lam binder body => exact .lam binder rfl
  | var id => exact .var id

theorem Target.rel_eq_iff {target : Target} {result result' : target.Result} :
    target.Rel Eq result result' ↔ result = result' := by
  cases target with
  | value => exact Iff.rfl
  | headNormal =>
    constructor
    · rintro (_ | ⟨_, rfl⟩ | _) <;> rfl
    · rintro rfl
      cases result with
      | lit value => exact .lit value
      | lam binder body => exact .lam binder rfl
      | var id => exact .var id

theorem couples_richer : Couples Eq Machine.Richer where
  arguments := by
    rintro m _ ⟨remaining, -, rfl⟩ id
    exact arguments_of_bindings_eq rfl id
  countStep := by
    rintro m _ ⟨remaining, more, rfl⟩
    exact ⟨remaining, more, rfl⟩
  bindArg := by
    rintro m _ ⟨remaining, more, rfl⟩ binder arg _ rfl
    exact ⟨remaining, more, rfl⟩

theorem encloses_richer (le : limits ≤ limits') :
    Encloses limits limits' Machine.Richer Machine.Richer where
  depth := le.2.1
  frames := le.2.2
  loops := by
    rintro m _ ⟨remaining, -, rfl⟩
    rfl
  outermost := by
    rintro m _ ⟨remaining, -, rfl⟩ -
    exact ⟨limits'.iterations, le.1, rfl⟩
  inner := by
    rintro m _ ⟨remaining, more, rfl⟩ -
    exact ⟨remaining, more, rfl⟩
  leave := by
    rintro m _ ⟨remaining, more, rfl⟩
    exact ⟨remaining, more, rfl⟩

/-- Where a loop can pay for a step, it can do so from a larger budget. -/
theorem simulates_spend (limits limits' : Limits) (target : Target) :
    Simulates Machine.Richer Eq (spend limits target) (spend limits' target) := by
  rintro m _ ⟨remaining, more, rfl⟩
  rw [run_spend, run_spend]
  by_cases hspent : m.remaining = 0
  · rw [if_pos hspent]
    exact .limit m rfl _
  · have hspent' : remaining ≠ 0 := by omega
    rw [if_neg hspent, if_neg hspent']
    exact .ok rfl ⟨remaining - 1, Nat.sub_le_sub_right more 1, rfl⟩

theorem simulates_record (expr : Expr) :
    Simulates Machine.Richer Eq (record expr) (record expr) := by
  rintro m _ ⟨remaining, more, rfl⟩
  rw [run_record, run_record]
  dsimp only
  split_ifs <;> exact .ok rfl ⟨remaining, more, rfl⟩

/-- What a relation between machines, one for each number of loops in progress, has to keep while
one loop runs within two limits. -/
structure Carries (limits limits' : Limits) (R : Nat → Machine → Machine → Prop) : Prop where
  couples (loops : Nat) : Couples Eq (R loops)
  spend (loops : Nat) (target : Target) :
    Simulates (R (loops + 1)) Eq (EvalM.spend limits target) (EvalM.spend limits' target)
  record (loops : Nat) (expr : Expr) :
    Simulates (R (loops + 1)) Eq (EvalM.record expr) (EvalM.record expr)
  inLoop (loops : Nat) {α β : Type} {S : α → β → Prop} {x : EvalM α} {y : EvalM β}
    (h : Simulates (R (loops + 1)) S x y) :
    Simulates (R loops) S (EvalM.inLoop limits x) (EvalM.inLoop limits' y)

/-- A step, if the loops that it starts have the larger bound on the second machine. -/
theorem Carries.stepWith {R : Nat → Machine → Machine → Prop} (hR : Carries limits limits' R)
    {bound bound' loops : Nat}
    (hiterate : ∀ target expr, Simulates (R (loops + 1)) (target.Rel Eq)
      (iterate limits bound target expr) (iterate limits' bound' target expr)) (expr : Expr) :
    Simulates (R loops) Eq
      (expr.stepWith fun target expr => EvalM.inLoop limits (iterate limits bound target expr))
      (expr.stepWith fun target expr =>
        EvalM.inLoop limits' (iterate limits' bound' target expr)) := by
  refine simulates_stepWith Expr.congruence_eq (hR.couples loops) ?_ expr.alike_self
  rintro target expr _ rfl
  exact hR.inLoop loops (hiterate target expr)

/-- A loop with a larger bound. -/
theorem Carries.iterate {R : Nat → Machine → Machine → Prop} (hR : Carries limits limits' R)
    {bound bound' : Nat} (more : bound ≤ bound') (loops : Nat) (target : Target) (expr : Expr) :
    Simulates (R (loops + 1)) (target.Rel Eq) (iterate limits bound target expr)
      (iterate limits' bound' target expr) := by
  induction bound generalizing bound' loops target expr with
  | zero => exact fun m _ _ => .limit m rfl _
  | succ bound ih =>
    obtain ⟨bound', rfl⟩ := Nat.exists_eq_add_of_lt more
    have hstep := hR.stepWith (ih (Nat.le_add_right bound bound') (loops + 1)) expr
    rw [Lambda94.iterate, Lambda94.iterate]
    refine (hR.spend loops target).bind fun _ _ _ => hstep.bind ?_
    rintro next _ rfl
    refine (hR.record loops next).bind fun _ _ _ => ?_
    cases target.reach? next with
    | some result => exact .pure (Target.rel_eq_iff.2 rfl)
    | none => exact ih (Nat.le_add_right _ _) loops target next

theorem carries_richer (le : limits ≤ limits') :
    Carries limits limits' fun _ => Machine.Richer where
  couples _ := couples_richer
  spend _ := simulates_spend limits limits'
  record _ := simulates_record
  inLoop _ _ _ _ _ _ h := (encloses_richer le).inLoop h

/-- A loop with a larger bound and larger limits. -/
theorem simulates_iterate (le : limits ≤ limits') {bound bound' : Nat} (more : bound ≤ bound')
    (target : Target) (expr : Expr) :
    Simulates Machine.Richer (target.Rel Eq) (iterate limits bound target expr)
      (iterate limits' bound' target expr) :=
  (carries_richer le).iterate more 0 target expr

/-! ### Main result -/

/-- A loop, to a value or to a head normal form, that ends on some machine within some limits, with
a result or with an error that is not about the limits, ends within larger limits with the same
result or error, and leaves the same machine behind except for the rest of the budget: the same
arguments, the same counts and the same trace. -/
theorem runLoop_of_le_limits (le : limits ≤ limits') (target : Target) (expr : Expr) (m : Machine) :
    (∀ result m₁, (runLoop limits target expr).run m = .ok result m₁ →
      ∃ remaining, (runLoop limits' target expr).run m = .ok result { m₁ with remaining }) ∧
    (∀ error m₁, (runLoop limits target expr).run m = .error error m₁ →
      error.isNonTermination = false →
      ∃ remaining, (runLoop limits' target expr).run m = .error error { m₁ with remaining }) := by
  have hsimulates : Simulates Machine.Richer (target.Rel Eq) (runLoop limits target expr)
      (runLoop limits' target expr) :=
    (encloses_richer le).inLoop (simulates_iterate le le.1 target expr)
  have hend := hsimulates m m ⟨m.remaining, Nat.le_refl _, rfl⟩
  constructor
  · intro result m₁ hrun
    rw [hrun] at hend
    obtain ⟨result', _, hrun', results, remaining, -, rfl⟩ := hend.of_ok
    obtain rfl := Target.rel_eq_iff.1 results
    exact ⟨remaining, hrun'⟩
  · intro error m₁ hrun settled
    rw [hrun] at hend
    obtain ⟨_, hrun', remaining, -, rfl⟩ := hend.of_error settled
    exact ⟨remaining, hrun'⟩

/-- A function applied once, and a division by zero, with just the steps and the loops that they
need and with the usual limits. -/
theorem runLoop_of_le_limits_just_enough :
    ∃ body expr failing m₁ m₂ remaining₁ remaining₂,
      body = .binary (.strict .add) (.var (-1)) (.var (-1)) ∧
      expr = .app (.lam (-1) body) (.lit (.int 3)) ∧
      failing = .binary (.strict .div) (.lit (.int 1)) (.lit (.int 0)) ∧
      (⟨5, 2, 2⟩ : Limits) ≤ {} ∧
      (runLoop ⟨5, 2, 2⟩ .value expr).run {} = .ok (.int 6) m₁ ∧
      (runLoop {} .value expr).run {} = .ok (.int 6) { m₁ with remaining := remaining₁ } ∧
      m₁.remaining = 0 ∧ m₁.steps = 5 ∧ m₁.betas = 1 ∧
      (runLoop ⟨5, 2, 2⟩ .value failing).run {} = .error (.divisionByZero .div) m₂ ∧
      (runLoop {} .value failing).run {} =
        .error (.divisionByZero .div) { m₂ with remaining := remaining₂ } := by
  let body : Expr := .binary (.strict .add) (.var (-1)) (.var (-1))
  let expr : Expr := .app (.lam (-1) body) (.lit (.int 3))
  let failing : Expr := .binary (.strict .div) (.lit (.int 1)) (.lit (.int 0))
  have le : (⟨5, 2, 2⟩ : Limits) ≤ {} := by decide
  have outcome₁ : outcome .lit ((runLoop ⟨5, 2, 2⟩ .value expr).run {}) = .ok (.lit (.int 6)) := by
    decide +kernel
  have counts : (after ((runLoop ⟨5, 2, 2⟩ .value expr).run {})).remaining = 0 ∧
      (after ((runLoop ⟨5, 2, 2⟩ .value expr).run {})).steps = 5 ∧
      (after ((runLoop ⟨5, 2, 2⟩ .value expr).run {})).betas = 1 := by
    decide +kernel
  have outcome₂ : outcome .lit ((runLoop ⟨5, 2, 2⟩ .value failing).run {}) =
      .error (.divisionByZero .div) := by
    decide +kernel
  cases hrun₁ : (runLoop ⟨5, 2, 2⟩ .value expr).run {} with
  | error error m₁ =>
    rw [hrun₁] at outcome₁
    cases outcome₁
  | ok value m₁ =>
    rw [hrun₁] at outcome₁ counts
    cases outcome₁
    cases hrun₂ : (runLoop ⟨5, 2, 2⟩ .value failing).run {} with
    | ok value m₂ =>
      rw [hrun₂] at outcome₂
      cases outcome₂
    | error error m₂ =>
      rw [hrun₂] at outcome₂
      cases outcome₂
      obtain ⟨remaining₁, hlarger₁⟩ := (runLoop_of_le_limits le .value expr {}).1 _ m₁ hrun₁
      obtain ⟨remaining₂, hlarger₂⟩ :=
        (runLoop_of_le_limits le .value failing {}).2 _ m₂ hrun₂ rfl
      exact ⟨body, expr, failing, m₁, m₂, remaining₁, remaining₂, rfl, rfl, rfl, le, hrun₁,
        hlarger₁, counts.1, counts.2.1, counts.2.2, hrun₂, hlarger₂⟩

end Lambda94
