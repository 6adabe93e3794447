import Lambda94.Proofs.FirstOrder
import Lambda94.Proofs.FlatStore
import Mathlib.Algebra.Order.Ring.Int

/-!
# Arithmetic that wraps

A run of an expression without functions keeps what the expression denotes (`Run.leads`), so within
any limits its evaluation ends with what it denotes, unless the limits end it: `evaluate_leads`.
An expression made of integers, negations, sums, differences and products denotes its exact value
over the unbounded integers, wrapped to 64 bits once, though every operation on the way has wrapped
its own result: `Expr.ExactValue.denote_eq`.
-/

namespace Lambda94

open EvalM

/-! ### Runs within any limits -/

/-- What a task may end with, if its expression has no functions: an expression that denotes the
same, the error that the expression denotes, or an error about the limits. -/
inductive Leads (expr : Expr) (first : expr.FirstOrder) : Except EvalError Expr → Prop
  | ok {next : Expr} (first' : next.FirstOrder) (same : next.denote first' = expr.denote first) :
    Leads expr first (.ok next)
  | error {error : EvalError} (same : expr.denote first = .error error) :
    Leads expr first (.error error)
  | limit {error : EvalError} (limited : error.isNonTermination = true) :
    Leads expr first (.error error)

namespace Leads

section

variable {expr next : Expr} {first : expr.FirstOrder} {outcome : Except EvalError Expr}

/-- What an operator makes of values. -/
theorem of_result {result : Except EvalError Value} (same : expr.denote first = result) :
    Leads expr first (result.map .lit) := by
  cases result with
  | ok value => exact .ok trivial same.symm
  | error error => exact .error same

/-- What an expression that denotes the same leads to. -/
theorem of_same {first' : next.FirstOrder} (h : Leads next first' outcome)
    (same : next.denote first' = expr.denote first) : Leads expr first outcome := by
  cases h with
  | ok first'' same' => exact .ok first'' (same'.trans same)
  | error same' => exact .error (same ▸ same')
  | limit limited => exact .limit limited

/-- An error of an operand is one of the whole. -/
theorem of_operand {first' : next.FirstOrder} {error : EvalError}
    (h : Leads next first' (.error error))
    (whole : next.denote first' = .error error → expr.denote first = .error error) :
    Leads expr first (.error error) := by
  cases h with
  | error same => exact .error (whole same)
  | limit limited => exact .limit limited

theorem denote_of_lit {value : Value} (h : Leads expr first (.ok (.lit value))) :
    expr.denote first = .ok value := by
  cases h with
  | ok first' same => exact same.symm

end

variable {operand left right c t e : Expr} {a b : Value} {error : EvalError}

theorem unary {op : UnaryOp} (first : (Expr.unary op operand).FirstOrder)
    {outcome : Except EvalError Expr} (h : Leads operand first outcome) :
    Leads (.unary op operand) first (outcome.map (.unary op)) := by
  cases h with
  | ok first' same => exact .ok first' (congrArg (· >>= op.eval) same)
  | error same => exact .error (congrArg (· >>= op.eval) same)
  | limit limited => exact .limit limited

theorem strict {op : StrictOp} (first : (Expr.binary (.strict op) left right).FirstOrder)
    (hleft : Leads left first.1 (.ok (.lit a))) (hright : Leads right first.2 (.ok (.lit b))) :
    Leads (.binary (.strict op) left right) first ((op.eval a b).map .lit) := by
  refine .of_result ?_
  rw [Expr.denote, hleft.denote_of_lit, hright.denote_of_lit]
  rfl

theorem strictLeft {op : StrictOp} (first : (Expr.binary (.strict op) left right).FirstOrder)
    (hleft : Leads left first.1 (.error error)) :
    Leads (.binary (.strict op) left right) first (.error error) := by
  refine hleft.of_operand fun same => ?_
  rw [Expr.denote, same]
  rfl

theorem strictRight {op : StrictOp} (first : (Expr.binary (.strict op) left right).FirstOrder)
    (hleft : Leads left first.1 (.ok (.lit a))) (hright : Leads right first.2 (.error error)) :
    Leads (.binary (.strict op) left right) first (.error error) := by
  refine hright.of_operand fun same => ?_
  rw [Expr.denote, hleft.denote_of_lit, same]
  rfl

theorem cond {b : Bool} (first : (Expr.cond c t e).FirstOrder)
    (hc : Leads c first.1 (.ok (.lit (.bool b)))) :
    Leads (.cond c t e) first (.ok (if b then t else e)) := by
  cases b with
  | true => exact .ok first.2.1 (by rw [Expr.denote, hc.denote_of_lit]; rfl)
  | false => exact .ok first.2.2 (by rw [Expr.denote, hc.denote_of_lit]; rfl)

theorem condOther (first : (Expr.cond c t e).FirstOrder) (hc : Leads c first.1 (.ok (.lit a)))
    (other : a.kind ≠ .boolean) :
    Leads (.cond c t e) first (.error (.nonBooleanCondition a)) := by
  refine .error ?_
  rw [Expr.denote, hc.denote_of_lit]
  cases a with
  | bool => exact absurd rfl other
  | str | int => rfl

theorem condError (first : (Expr.cond c t e).FirstOrder) (hc : Leads c first.1 (.error error)) :
    Leads (.cond c t e) first (.error error) := by
  refine hc.of_operand fun same => ?_
  rw [Expr.denote, same]
  rfl

end Leads

/-- A run keeps what an expression without functions denotes. -/
theorem Run.leads {pending : List Expr} {task : Task} {store store' : Store} {log : List Binding}
    {outcome : Except EvalError Expr} (h : Run pending task store log outcome store')
    (first : task.expr.FirstOrder) : Leads task.expr first outcome := by
  induction h with
  | lit value => exact .ok first rfl
  | lam | var | varError => exact first.elim
  | apply | applyVar | applyValue | applyError => exact first.elim
  | unaryValue op value => exact .of_result rfl
  | unary op _ _ ih => exact .unary first (ih first)
  | strict op _ _ ih ih' => exact .strict first (ih first.1) (ih' first.2)
  | strictLeft op _ ih => exact .strictLeft first (ih first.1)
  | strictRight op _ _ ih ih' => exact .strictRight first (ih first.1) (ih' first.2)
  | cond _ ih => exact .cond first (ih first.1)
  | condOther _ other ih => exact .condOther first (ih first.1) other
  | condError _ ih => exact .condError first (ih first.1)
  | limit target expr limited => exact .limit limited
  | stepError _ ih | reach _ _ ih => exact ih first
  | next _ _ _ ih ih' =>
    cases ih first with
    | ok first' same => exact (ih' first').of_same same

/-- Within any limits and on any machine, an expression without functions evaluates to what it
denotes or fails with the error that it denotes, unless it fails with an error about the limits. -/
theorem evaluate_leads {expr : Expr} (first : expr.FirstOrder) (limits : Limits) (m : Machine) :
    Leads expr first (outcome .lit ((expr.evaluate limits).run m)) := by
  obtain ⟨log, hrun, -⟩ := follows_runLoop limits .value expr [] m
  exact hrun.leads first

/-! ### Exact values -/

/-- The expression is made of integers of 64 bits, negations, sums, differences and products, and
has the given value over the unbounded integers. -/
inductive Expr.ExactValue : Expr → Int → Prop
  | lit {n : Int} (lower : -2 ^ 63 ≤ n) (upper : n < 2 ^ 63) : ExactValue (.lit (.int n)) n
  | negate {operand : Expr} {n : Int} (h : ExactValue operand n) :
    ExactValue (.unary .negate operand) (-n)
  | add {left right : Expr} {a b : Int} (hleft : ExactValue left a) (hright : ExactValue right b) :
    ExactValue (.binary (.strict .add) left right) (a + b)
  | sub {left right : Expr} {a b : Int} (hleft : ExactValue left a) (hright : ExactValue right b) :
    ExactValue (.binary (.strict .sub) left right) (a - b)
  | mul {left right : Expr} {a b : Int} (hleft : ExactValue left a) (hright : ExactValue right b) :
    ExactValue (.binary (.strict .mul) left right) (a * b)

namespace Expr

theorem denote_unary {op : UnaryOp} {operand : Expr} {a result : Value}
    (hoperand : ∃ first, operand.denote first = .ok a) (applied : op.eval a = .ok result) :
    ∃ first, (Expr.unary op operand).denote first = .ok result := by
  obtain ⟨first, ha⟩ := hoperand
  have whole : (Expr.unary op operand).FirstOrder := first
  refine ⟨whole, ?_⟩
  rw [denote, ha]
  exact applied

theorem denote_strict {op : StrictOp} {left right : Expr} {a b result : Value}
    (hleft : ∃ first, left.denote first = .ok a) (hright : ∃ first, right.denote first = .ok b)
    (applied : op.eval a b = .ok result) :
    ∃ first, (Expr.binary (.strict op) left right).denote first = .ok result := by
  obtain ⟨first, ha⟩ := hleft
  obtain ⟨first', hb⟩ := hright
  have whole : (Expr.binary (.strict op) left right).FirstOrder := ⟨first, first'⟩
  refine ⟨whole, ?_⟩
  rw [denote, ha, hb]
  exact applied

/-- The exact value, wrapped once, is what the expression denotes. -/
theorem ExactValue.denote_eq {expr : Expr} {n : Int} (h : expr.ExactValue n) :
    ∃ first, expr.denote first = .ok (.ofInt n) := by
  induction h with
  | @lit n lower upper =>
    refine ⟨trivial, ?_⟩
    show Except.ok (Value.int n) = .ok (.int (wrap n))
    rw [wrap_eq_self (by omega) (by omega)]
  | @negate _ n _ ih =>
    refine denote_unary ih ?_
    show Except.ok (Value.int (wrap (-wrap n))) = .ok (.int (wrap (-n)))
    rw [wrap_neg_wrap]
  | @add _ _ a b _ _ ihl ihr =>
    refine denote_strict ihl ihr ?_
    show Except.ok (Value.int (wrap (wrap a + wrap b))) = .ok (.int (wrap (a + b)))
    rw [wrap_add_wraps]
  | @sub _ _ a b _ _ ihl ihr =>
    refine denote_strict ihl ihr ?_
    show Except.ok (Value.int (wrap (wrap a - wrap b))) = .ok (.int (wrap (a - b)))
    rw [wrap_sub_wraps]
  | @mul _ _ a b _ _ ihl ihr =>
    refine denote_strict ihl ihr ?_
    show Except.ok (Value.int (wrap (wrap a * wrap b))) = .ok (.int (wrap (a * b)))
    rw [wrap_mul_wraps]

end Expr

theorem EvalError.kind_of_isNonTermination {error : EvalError}
    (h : error.isNonTermination = true) : error.kind = "NonTermination" := by
  cases error with
  | outOfSteps | tooDeep | stackExhausted => rfl
  | _ => cases h

/-! ### Main result -/

/-- If an expression made of integers of 64 bits, negations, sums, differences and products
evaluates to a value, on any machine and within any limits, it is the exact value of the expression
over the unbounded integers, wrapped to 64 bits once.  It never fails but for the limits. -/
theorem evaluate_of_exactValue {expr : Expr} {n : Int} (exact : expr.ExactValue n)
    (limits : Limits) (m : Machine) :
    (∀ value m', (expr.evaluate limits).run m = .ok value m' → value = .int (wrap n)) ∧
    ∀ error m', (expr.evaluate limits).run m = .error error m' → error.kind = "NonTermination" := by
  obtain ⟨first, denotes⟩ := exact.denote_eq
  have leads := evaluate_leads first limits m
  constructor
  · intro value m' hrun
    rw [hrun] at leads
    exact Except.ok.inj (leads.denote_of_lit.symm.trans denotes)
  · intro error m' hrun
    rw [hrun] at leads
    cases leads with
    | error same =>
      rw [denotes] at same
      cases same
    | limit limited => exact error.kind_of_isNonTermination limited

/-- The negation of the least integer, multiplied by a sum that overflows as well, less three: the
exact value is `2 ^ 126 - 3`.  With three steps the evaluation gives up. -/
theorem evaluate_of_exactValue_overflows :
    ∃ (expr : Expr) (m m' : Machine) (error : EvalError),
      expr = .binary (.strict .sub)
        (.binary (.strict .mul) (.unary .negate (.lit (.int (-2 ^ 63))))
          (.binary (.strict .add) (.lit (.int (2 ^ 62))) (.lit (.int (2 ^ 62)))))
        (.lit (.int 3)) ∧
      expr.ExactValue (-(-2 ^ 63) * (2 ^ 62 + 2 ^ 62) - 3) ∧
      (expr.evaluate {}).run {} = .ok (.int (-3)) m ∧
      (expr.evaluate ⟨3, 4, 4⟩).run {} = .error error m' ∧ error.kind = "NonTermination" := by
  let expr : Expr := .binary (.strict .sub)
    (.binary (.strict .mul) (.unary .negate (.lit (.int (-2 ^ 63))))
      (.binary (.strict .add) (.lit (.int (2 ^ 62))) (.lit (.int (2 ^ 62)))))
    (.lit (.int 3))
  have exact : expr.ExactValue (-(-2 ^ 63) * (2 ^ 62 + 2 ^ 62) - 3) :=
    .sub (.mul (.negate (.lit (by decide) (by decide)))
      (.add (.lit (by decide) (by decide)) (.lit (by decide) (by decide))))
      (.lit (by decide) (by decide))
  have ends : (outcome .lit ((expr.evaluate {}).run {})).isOk = true := by decide +kernel
  have stops : (outcome .lit ((expr.evaluate ⟨3, 4, 4⟩).run {})).isOk = false := by decide +kernel
  cases hrun : (expr.evaluate {}).run {} with
  | error error m =>
    rw [hrun] at ends
    cases ends
  | ok value m =>
    have hvalue := (evaluate_of_exactValue exact {} {}).1 value m hrun
    cases hrun' : (expr.evaluate ⟨3, 4, 4⟩).run {} with
    | ok value' m' =>
      rw [hrun'] at stops
      cases stops
    | error error m' =>
      have hkind := (evaluate_of_exactValue exact ⟨3, 4, 4⟩ {}).2 error m' hrun'
      have wrapped : wrap (-(-2 ^ 63) * (2 ^ 62 + 2 ^ 62) - 3) = -3 := by decide
      rw [wrapped] at hvalue
      exact ⟨expr, m, m', error, rfl, exact, hvalue ▸ hrun, hrun', hkind⟩

end Lambda94
