import Lambda94.Proofs.MachineRun
import Lambda94.Program
import Mathlib.Tactic.Ring

/-!
# Counted steps and paid steps

A loop pays for each of its steps out of the budget.  The operand of a unary operator is stepped in
place, which is counted as a step but not paid for.  So the budget bounds the steps that are paid
for, and more of them may be counted: `steps_exceed_budget`.

A step on an expression with unary operators in front counts one for each operator, and may leave
more operators in front than it found, though no more than the program has in one place.  The loop
invariant is therefore `Expr.Fronted`, and a loop that pays for `n` steps counts at most
`n + h * (n * (n + 1) / 2)` if the program nowhere has more than `h` operators to step under:
`steps_le_of_maxInPlace`.
-/

namespace Lambda94

/-! ### Steps in place -/

namespace Expr

/-- The steps in place that a step of the expression takes. -/
def inPlace : Expr → Nat
  | .unary _ (.lit _) => 0
  | .unary _ operand => operand.inPlace + 1
  | _ => 0

/-- The most steps in place that a step of any part of the expression takes. -/
def maxInPlace : Expr → Nat
  | .lit _ | .var _ => 0
  | .unary op operand => max (inPlace (.unary op operand)) operand.maxInPlace
  | .binary _ left right => max left.maxInPlace right.maxInPlace
  | .cond c t e => max c.maxInPlace (max t.maxInPlace e.maxInPlace)
  | .lam _ body => body.maxInPlace

theorem inPlace_unary (op : UnaryOp) {operand : Expr} (stuck : ∀ value, operand ≠ .lit value) :
    (Expr.unary op operand).inPlace = operand.inPlace + 1 := by
  cases operand with
  | lit value => exact absurd rfl (stuck value)
  | _ => rfl

theorem inPlace_le_maxInPlace (expr : Expr) : expr.inPlace ≤ expr.maxInPlace := by
  cases expr with
  | unary op operand => exact Nat.le_max_left _ _
  | _ => exact Nat.zero_le _

variable {h : Nat}

/-- At most `front` unary operators in front of an expression in which a step takes at most `h`
steps in place. -/
inductive Fronted (h : Nat) : Nat → Expr → Prop
  | core {front : Nat} {expr : Expr} (within : expr.maxInPlace ≤ h) : Fronted h front expr
  | unary {front : Nat} (op : UnaryOp) {operand : Expr} (below : Fronted h front operand) :
    Fronted h (front + 1) (.unary op operand)

theorem Fronted.mono {front front' : Nat} {expr : Expr} (he : expr.Fronted h front)
    (le : front ≤ front') : expr.Fronted h front' := by
  induction he generalizing front' with
  | core within => exact .core within
  | unary op _ ih =>
    obtain ⟨front', rfl⟩ := Nat.exists_eq_add_of_lt le
    exact .unary op (ih (Nat.le_add_right _ _))

/-- Only unary operators stand in front. -/
theorem Fronted.maxInPlace_le {target : Target} {front : Nat} {expr : Expr}
    (he : expr.Fronted h front) (reached : (target.reach? expr).isSome) : expr.maxInPlace ≤ h := by
  cases he with
  | core within => exact within
  | unary op below => cases target <;> cases reached

end Expr

/-! ### Costs -/

/-- The steps counted while a loop, `done` of whose steps were paid for before, pays for some
more. -/
def stepCost (h : Nat) (done : Nat) : Nat → Nat
  | 0 => 0
  | paid + 1 => (done + 1) * h + 1 + stepCost h (done + 1) paid

theorem stepCost_mono (h : Nat) {done done' : Nat} (le : done ≤ done') (paid : Nat) :
    stepCost h done paid ≤ stepCost h done' paid := by
  induction paid generalizing done done' with
  | zero => exact Nat.le_refl 0
  | succ paid ih =>
    have hrest : stepCost h (done + 1) paid ≤ stepCost h (done' + 1) paid := ih (by omega)
    have hstep : (done + 1) * h ≤ (done' + 1) * h := Nat.mul_le_mul_right h (by omega)
    rw [stepCost, stepCost]
    omega

theorem stepCost_add (h done paid paid' : Nat) :
    stepCost h done (paid + paid') = stepCost h done paid + stepCost h (done + paid) paid' := by
  induction paid generalizing done with
  | zero => simp [stepCost]
  | succ paid ih =>
    have hrest := ih (done + 1)
    rw [show done + 1 + paid = done + (paid + 1) by omega] at hrest
    rw [show paid + 1 + paid' = paid + paid' + 1 by omega, stepCost, stepCost, hrest]
    omega

/-- Two computations in a row count no more steps than one that pays for both. -/
theorem stepCost_add_le (h done paid paid' : Nat) :
    stepCost h done paid + stepCost h 0 paid' ≤ stepCost h done (paid + paid') := by
  rw [stepCost_add]
  exact Nat.add_le_add_left (stepCost_mono h (Nat.zero_le _) paid') _

theorem stepCost_zero_eq (h paid : Nat) :
    stepCost h 0 paid = paid + h * (paid * (paid + 1) / 2) := by
  induction paid with
  | zero => simp [stepCost]
  | succ paid ih =>
    have hsum : (paid + 1) * (paid + 1 + 1) / 2 = paid * (paid + 1) / 2 + (paid + 1) := by
      rw [show (paid + 1) * (paid + 1 + 1) = paid * (paid + 1) + (paid + 1) * 2 by ring,
        Nat.add_mul_div_right _ _ Nat.two_pos]
    rw [stepCost_add, ih, hsum, stepCost, stepCost]
    ring

/-- A step of any argument takes at most `h` steps in place. -/
def Machine.Within (h : Nat) (m : Machine) : Prop :=
  ∀ (id : Int) (arg : Expr), m.bindings[id]? = some arg → arg.maxInPlace ≤ h

theorem Machine.Within.bind {h : Nat} {m : Machine} (hm : m.Within h) (binder : Int) {arg : Expr}
    (harg : arg.maxInPlace ≤ h) (id : Int) (arg' : Expr)
    (bound : (m.bindings.insert binder arg)[id]? = some arg') : arg'.maxInPlace ≤ h := by
  by_cases hid : id = binder
  · rw [hid, Store.getElem?_insert_self] at bound
    exact Option.some.inj bound ▸ harg
  · rw [Store.getElem?_insert_of_ne _ _ hid] at bound
    exact hm id arg' bound

/-- From one machine to the other inside a loop, `paid` steps were paid for and at most `steps` were
counted. -/
structure Machine.Pays (h paid steps : Nat) (m m' : Machine) : Prop where
  loops : m'.loops = m.loops
  within : m'.Within h
  remaining : m'.remaining + paid = m.remaining
  counted : m'.steps ≤ m.steps + steps

theorem Machine.Pays.trans {h paid steps paid' steps' : Nat} {m m' m'' : Machine}
    (h₁ : m.Pays h paid steps m') (h₂ : m'.Pays h paid' steps' m'') :
    m.Pays h (paid + paid') (steps + steps') m'' where
  loops := h₂.loops.trans h₁.loops
  within := h₂.within
  remaining := by have := h₁.remaining; have := h₂.remaining; omega
  counted := by have := h₁.counted; have := h₂.counted; omega

theorem Machine.Pays.mono {h paid steps steps' : Nat} {m m' : Machine}
    (hpays : m.Pays h paid steps m') (le : steps ≤ steps') : m.Pays h paid steps' m' where
  loops := hpays.loops
  within := hpays.within
  remaining := hpays.remaining
  counted := hpays.counted.trans (Nat.add_le_add_left le _)

/-- A step that a loop pays for. -/
theorem Machine.Pays.paidStep {h paid steps : Nat} {m m' : Machine} (funds : m.remaining ≠ 0)
    (hpays : Machine.Pays h paid steps { m with remaining := m.remaining - 1 } m') :
    m.Pays h (paid + 1) steps m' where
  loops := hpays.loops
  within := hpays.within
  remaining := by
    have hremaining : m'.remaining + paid = m.remaining - 1 := hpays.remaining
    omega
  counted := hpays.counted

theorem Machine.Pays.withTrace {h paid steps : Nat} {m m' : Machine}
    (hpays : m.Pays h paid steps m') (trace : List Expr) : m.Pays h paid steps { m' with trace } :=
  ⟨hpays.loops, hpays.within, hpays.remaining, hpays.counted⟩

namespace EvalM

variable {α β : Type} {h n : Nat} {P : α → Prop} {Q : β → Prop}

/-- Inside a loop, the computation counts at most `n` steps besides those of the loops that it pays
for, and its result has the property `P`. -/
def Costs (h n : Nat) (P : α → Prop) (x : EvalM α) : Prop :=
  ∀ m, m.loops ≠ 0 → m.Within h → ∃ paid,
    m.Pays h paid (n + stepCost h 0 paid) (after (x.run m)) ∧ ∀ a m', x.run m = .ok a m' → P a

theorem Costs.pure {a : α} (ha : P a) : Costs h n P (Pure.pure a) := by
  intro m _ hm
  refine ⟨0, ⟨rfl, hm, rfl, Nat.le_add_right _ _⟩, ?_⟩
  rintro _ _ ⟨⟩
  exact ha

theorem Costs.throw (error : EvalError) : Costs h n P (MonadExcept.throw error) :=
  fun _ _ hm => ⟨0, ⟨rfl, hm, rfl, Nat.le_add_right _ _⟩, nofun⟩

theorem Costs.mono {n' : Nat} {P' : α → Prop} {x : EvalM α} (hx : Costs h n P x) (le : n ≤ n')
    (imp : ∀ a, P a → P' a) : Costs h n' P' x := by
  intro m busy hm
  obtain ⟨paid, hpays, hP⟩ := hx m busy hm
  exact ⟨paid, hpays.mono (Nat.add_le_add_right le _), fun a m' hrun => imp a (hP a m' hrun)⟩

theorem Costs.bind {x : EvalM α} {f : α → EvalM β} (hx : Costs h n P x)
    (hf : ∀ a, P a → Costs h 0 Q (f a)) : Costs h n Q (x >>= f) := by
  intro m busy hm
  obtain ⟨paid, hpays, hP⟩ := hx m busy hm
  cases hrun : x.run m with
  | error error m₁ =>
    rw [hrun] at hpays
    rw [run_bind_of_error hrun]
    exact ⟨paid, hpays, nofun⟩
  | ok a m₁ =>
    rw [hrun] at hpays
    rw [run_bind_of_ok hrun]
    have busy₁ : m₁.loops ≠ 0 := fun idle => busy (hpays.loops.symm.trans idle)
    obtain ⟨paid', hpays', hQ⟩ := hf a (hP a m₁ hrun) m₁ busy₁ hpays.within
    have hcost := stepCost_add_le h 0 paid paid'
    exact ⟨paid + paid', (hpays.trans hpays').mono (by omega), hQ⟩

theorem Costs.counting {x : EvalM α} (hx : Costs h n P x) :
    Costs h (n + 1) P (do countStep; x) := by
  intro m busy hm
  obtain ⟨paid, hpays, hP⟩ := hx { m with steps := m.steps + 1 } busy hm
  refine ⟨paid, ⟨hpays.loops, hpays.within, hpays.remaining, hpays.counted.trans ?_⟩, hP⟩
  show m.steps + 1 + (n + stepCost h 0 paid) ≤ m.steps + (n + 1 + stepCost h 0 paid)
  omega

theorem costs_lookup (id : Int) (front : Nat) :
    Costs h n (Expr.Fronted h front) (lookup id) := by
  intro m _ hm
  rw [run_lookup]
  cases hbound : m.bindings[id]? with
  | none => exact ⟨0, ⟨rfl, hm, rfl, Nat.le_add_right _ _⟩, nofun⟩
  | some arg =>
    refine ⟨0, ⟨rfl, hm, rfl, Nat.le_add_right _ _⟩, ?_⟩
    rintro _ _ ⟨⟩
    exact .core (hm id arg hbound)

theorem costs_bindArg (binder : Int) {arg : Expr} (harg : arg.maxInPlace ≤ h) :
    Costs h n (fun _ => True) (bindArg binder arg) :=
  fun _ _ hm => ⟨0, ⟨rfl, hm.bind binder harg, rfl, Nat.le_add_right _ _⟩, fun _ _ _ => trivial⟩

theorem costs_ofExcept (x : Except EvalError Value) (front : Nat) :
    Costs h n (Expr.Fronted h front) (do return .lit (← ofExcept x)) := by
  cases x with
  | ok value => exact .pure (.core (Nat.zero_le _))
  | error error => exact .throw error

/-- The budget of a loop inside another one is that of the outer one. -/
theorem Costs.inLoop (limits : Limits) {x : EvalM α} (hx : Costs h n P x) :
    Costs h n P (EvalM.inLoop limits x) := by
  intro m busy hm
  rcases run_inLoop_of_busy limits x busy with ⟨error, -, hrun⟩ | ⟨room, stack⟩
  · rw [hrun]
    exact ⟨0, ⟨rfl, hm, rfl, Nat.le_add_right _ _⟩, nofun⟩
  obtain ⟨paid, hpays, hP⟩ := hx { m with loops := m.loops + 1 } (Nat.succ_ne_zero _) hm
  rw [run_inLoop_of_room busy room stack]
  refine ⟨paid, ?_⟩
  cases hx' : x.run { m with loops := m.loops + 1 } with
  | error error m₁ =>
    rw [hx'] at hpays
    exact ⟨⟨congrArg (· - 1) hpays.loops, hpays.within, hpays.remaining, hpays.counted⟩, nofun⟩
  | ok a m₁ =>
    rw [hx'] at hpays
    refine ⟨⟨congrArg (· - 1) hpays.loops, hpays.within, hpays.remaining, hpays.counted⟩, ?_⟩
    rintro _ _ ⟨⟩
    exact hP a m₁ hx'

/-! ### Steps and loops -/

/-- The loops that a step starts count no steps but those that they pay for. -/
abbrev LoopsCost (h : Nat) (run : (target : Target) → Expr → EvalM target.Result) : Prop :=
  ∀ target expr, expr.maxInPlace ≤ h →
    Costs h 0 (fun result => (target.toExpr result).maxInPlace ≤ h) (run target expr)

variable {run : (target : Target) → Expr → EvalM target.Result}

theorem costs_stepWith_unary (op : UnaryOp) {operand : Expr} {front : Nat}
    (hoperand : Costs h n (Expr.Fronted h front) (operand.stepWith run)) :
    Costs h (n + 1) (Expr.Fronted h (front + 1)) ((Expr.unary op operand).stepWith run) := by
  by_cases hlit : ∃ value, operand = .lit value
  · obtain ⟨value, rfl⟩ := hlit
    exact Costs.counting (costs_ofExcept _ _)
  · rw [Expr.stepWith_unary op fun value h => hlit ⟨value, h⟩]
    exact Costs.counting (hoperand.bind fun next hnext => .pure (.unary op hnext))

/-- A step counts itself, its steps in place and the steps of its loops. -/
theorem costs_stepWith_core (hrun : LoopsCost h run) {expr : Expr} (hexpr : expr.maxInPlace ≤ h) :
    Costs h (expr.inPlace + 1) (Expr.Fronted h expr.inPlace) (expr.stepWith run) := by
  induction expr with
  | lit value => exact Costs.counting (.pure (.core hexpr))
  | lam binder body => exact Costs.counting (.pure (.core hexpr))
  | var id => exact Costs.counting (costs_lookup id _)
  | unary op operand ih =>
    by_cases hlit : ∃ value, operand = .lit value
    · obtain ⟨value, rfl⟩ := hlit
      exact Costs.counting (costs_ofExcept _ _)
    · rw [Expr.inPlace_unary op fun value h => hlit ⟨value, h⟩]
      exact costs_stepWith_unary op (ih ((Nat.le_max_right _ _).trans hexpr))
  | binary op left right ihl ihr =>
    obtain ⟨hleft, hright⟩ := max_le_iff.1 hexpr
    cases op with
    | strict op =>
      refine Costs.counting ((hrun .value left hleft).bind fun a _ => ?_)
      exact (hrun .value right hright).bind fun b _ => costs_ofExcept _ _
    | apply =>
      refine Costs.counting ((hrun .headNormal left hleft).bind fun head hhead => ?_)
      cases head with
      | lit value => exact .throw _
      | var id => exact .pure (.core (max_le (Nat.zero_le _) hright))
      | lam binder body => exact (costs_bindArg binder hright).bind fun _ _ => .pure (.core hhead)
  | cond condition thenBranch elseBranch ihc iht ihe =>
    obtain ⟨hcondition, hbranches⟩ := max_le_iff.1 hexpr
    obtain ⟨hthen, helse⟩ := max_le_iff.1 hbranches
    refine Costs.counting ((hrun .value condition hcondition).bind fun value _ => ?_)
    cases value with
    | bool b =>
      cases b with
      | true => exact .pure (.core hthen)
      | false => exact .pure (.core helse)
    | str s => exact .throw _
    | int n => exact .throw _

/-- A step adds at most `h` unary operators to those in front. -/
theorem costs_stepWith (hrun : LoopsCost h run) {front : Nat} {expr : Expr}
    (hexpr : expr.Fronted h front) :
    Costs h (front + h + 1) (Expr.Fronted h (front + h)) (expr.stepWith run) := by
  induction hexpr with
  | @core front expr within =>
    have hle := expr.inPlace_le_maxInPlace.trans within
    exact (costs_stepWith_core hrun within).mono (by omega) fun next hnext => hnext.mono (by omega)
  | @unary front op operand _ ih =>
    rw [Nat.add_right_comm front 1 h]
    exact costs_stepWith_unary op ih

/-- A loop that has paid for `done` steps of its own has at most `h` unary operators in front for
each of them. -/
theorem pays_iterate (limits : Limits) (bound done : Nat) (target : Target) {expr : Expr}
    (hexpr : expr.Fronted h (done * h)) {m : Machine} (busy : m.loops ≠ 0) (hm : m.Within h) :
    ∃ paid, m.Pays h paid (stepCost h done paid)
        (after ((iterate limits bound target expr).run m)) ∧
      ∀ result m', (iterate limits bound target expr).run m = .ok result m' →
        (target.toExpr result).maxInPlace ≤ h := by
  induction bound generalizing done target expr m with
  | zero => exact ⟨0, ⟨rfl, hm, rfl, Nat.le_add_right _ _⟩, nofun⟩
  | succ bound ih =>
    have hinner : LoopsCost h fun target expr =>
        inLoop limits (iterate limits bound target expr) := by
      refine fun target expr within => Costs.inLoop limits fun m busy hm => ?_
      obtain ⟨paid, hpays, hresult⟩ := ih 0 target (.core within) busy hm
      exact ⟨paid, hpays.mono (Nat.le_add_left _ _), hresult⟩
    by_cases hspent : m.remaining = 0
    · rw [run_iterate_of_spent limits (bound + 1) target expr hspent]
      exact ⟨0, ⟨rfl, hm, rfl, Nat.le_add_right _ _⟩, nofun⟩
    obtain ⟨paid, hstep, hnext⟩ :=
      costs_stepWith hinner hexpr { m with remaining := m.remaining - 1 } busy hm
    replace hstep := hstep.paidStep hspent
    -- This step of the loop and what the loops inside it have paid for.
    have hcost : done * h + h + 1 + stepCost h 0 paid ≤ stepCost h done (paid + 1) := by
      have hmono := stepCost_mono h (Nat.zero_le (done + 1)) paid
      rw [stepCost, Nat.succ_mul]
      omega
    rw [run_iterate_succ limits bound target expr hspent]
    cases hrun : (expr.stepWith fun target expr =>
        inLoop limits (iterate limits bound target expr)).run
        { m with remaining := m.remaining - 1 } with
    | error error m₁ =>
      rw [hrun] at hstep
      rw [run_bind_of_error hrun]
      exact ⟨paid + 1, hstep.mono hcost, nofun⟩
    | ok next m₁ =>
      rw [hrun] at hstep
      rw [run_bind_of_ok hrun]
      have hfront := hnext next m₁ hrun
      cases hreach : target.reach? next with
      | some result =>
        obtain ⟨trace, harrive⟩ := run_arrive_of_reach limits bound m₁ hreach
        rw [harrive]
        refine ⟨paid + 1, (hstep.mono hcost).withTrace trace, ?_⟩
        rintro _ _ ⟨⟩
        rw [Target.toExpr_of_reach? hreach]
        exact hfront.maxInPlace_le (by rw [hreach, Option.isSome_some])
      | none =>
        obtain ⟨trace, harrive⟩ := run_arrive_of_not_reach limits bound m₁ hreach
        rw [harrive]
        have busy₁ : m₁.loops ≠ 0 := fun idle => busy (hstep.loops.symm.trans idle)
        rw [← Nat.succ_mul] at hfront
        obtain ⟨paid', hrest, hresult⟩ :=
          ih (done + 1) target hfront (m := { m₁ with trace }) busy₁ hstep.within
        refine ⟨paid + 1 + paid', ((hstep.withTrace trace).trans hrest).mono ?_, hresult⟩
        have hadd := stepCost_add_le h (done + 1) paid' paid
        rw [show paid + 1 + paid' = paid' + paid + 1 by omega, stepCost, Nat.succ_mul]
        omega

end EvalM

/-! ### Main result -/

open EvalM

/-- An evaluation that starts on a fresh machine pays for no more steps than the budget holds.  It
counts those steps, and for each one the unary operators that may have come to stand in front, of
which every step adds at most as many as the expression has in one place.  If every unary operator
is applied to a literal there are none, and no more steps are counted than the budget holds. -/
theorem steps_le_of_maxInPlace (limits : Limits) (target : Target) (expr : Expr) :
    ∃ paid ≤ limits.iterations,
      (after ((runLoop limits target expr).run {})).remaining = limits.iterations - paid ∧
      (after ((runLoop limits target expr).run {})).steps ≤
        paid + expr.maxInPlace * (paid * (paid + 1) / 2) := by
  let m : Machine := { remaining := limits.iterations, loops := 1 }
  let r := (iterate limits limits.iterations target expr).run m
  have hm : m.Within expr.maxInPlace := fun id arg h => by cases h
  obtain ⟨paid, hpays, -⟩ := pays_iterate limits limits.iterations 0 target
    (.core (Nat.le_refl expr.maxInPlace)) Nat.one_ne_zero hm
  have hafter : after ((runLoop limits target expr).run {}) =
      { after r with loops := (after r).loops - 1 } := by
    rw [runLoop, run_inLoop_of_idle rfl]
    show after (leaveLoop r) = _
    cases r <;> rfl
  have hremaining : (after r).remaining + paid = limits.iterations := hpays.remaining
  have hcounted : (after r).steps ≤ 0 + stepCost expr.maxInPlace 0 paid := hpays.counted
  rw [Nat.zero_add, stepCost_zero_eq] at hcounted
  rw [hafter]
  exact ⟨paid, by omega, by dsimp only; omega, hcounted⟩

/-- Two negations in front of each other: a budget of two steps pays for an evaluation in which
three steps are counted. -/
theorem steps_exceed_budget :
    ∃ expr, Expr.ofText "U- U- I\"" = .ok expr ∧
      outcome .lit ((expr.evaluate ⟨2, 1, 1⟩).run {}) = .ok (.lit (.int 1)) ∧
      (after ((expr.evaluate ⟨2, 1, 1⟩).run {})).steps = 3 := by
  let expr : Expr := .unary .negate (.unary .negate (.lit (.int 1)))
  have read : Expr.ofText "U- U- I\"" = .ok expr := by decide +kernel
  exact ⟨expr, read, by decide +kernel, by decide +kernel⟩

end Lambda94
