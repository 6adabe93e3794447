import Lambda94.Eval.Scalar
import Lambda94.Proofs.Substitution

/-!
# Call-by-name evaluation

The meaning of expressions, without a machine: an application evaluates its function and goes on
with the body, into which the argument is put unevaluated.  Operators and conditions are strict and
evaluate their operands from left to right; what they do with values is the business of
`UnaryOp.eval` and `StrictOp.eval`.

An expression evaluates to a value, to a function or to an error, and to one of them at most:
`Evaluates.unique`.  An operator or a condition that meets a function where it needs a value does
not evaluate to anything.
-/

namespace Lambda94

/-- What an evaluation without error ends with. -/
inductive Answer
  | value (value : Value)
  | function (binder : Int) (body : Expr)
deriving DecidableEq, Repr

namespace Expr

/-- Evaluation by name, to an answer or an error. -/
inductive Evaluates : Expr → Except EvalError Answer → Prop
  | lit (value : Value) : Evaluates (.lit value) (.ok (.value value))
  | lam (binder : Int) (body : Expr) : Evaluates (.lam binder body) (.ok (.function binder body))
  | var (id : Int) : Evaluates (.var id) (.error (.unboundVariable id))
  | unary {op : UnaryOp} {operand : Expr} {value : Value} :
    Evaluates operand (.ok (.value value)) →
    Evaluates (.unary op operand) ((op.eval value).map .value)
  | unaryError {op : UnaryOp} {operand : Expr} {error : EvalError} :
    Evaluates operand (.error error) → Evaluates (.unary op operand) (.error error)
  | strict {op : StrictOp} {left right : Expr} {a b : Value} :
    Evaluates left (.ok (.value a)) → Evaluates right (.ok (.value b)) →
    Evaluates (.binary (.strict op) left right) ((op.eval a b).map .value)
  | strictLeft {op : StrictOp} {left right : Expr} {error : EvalError} :
    Evaluates left (.error error) → Evaluates (.binary (.strict op) left right) (.error error)
  | strictRight {op : StrictOp} {left right : Expr} {a : Value} {error : EvalError} :
    Evaluates left (.ok (.value a)) → Evaluates right (.error error) →
    Evaluates (.binary (.strict op) left right) (.error error)
  | apply {fn arg : Expr} {binder : Int} {body : Expr} {result : Except EvalError Answer} :
    Evaluates fn (.ok (.function binder body)) → Evaluates (body.instantiate binder arg) result →
    Evaluates (.app fn arg) result
  | applyValue {fn arg : Expr} {value : Value} :
    Evaluates fn (.ok (.value value)) → Evaluates (.app fn arg) (.error (.applyNonFunction value))
  | applyError {fn arg : Expr} {error : EvalError} :
    Evaluates fn (.error error) → Evaluates (.app fn arg) (.error error)
  | cond {condition thenBranch elseBranch : Expr} {b : Bool} {result : Except EvalError Answer} :
    Evaluates condition (.ok (.value (.bool b))) →
    Evaluates (if b then thenBranch else elseBranch) result →
    Evaluates (.cond condition thenBranch elseBranch) result
  | condOther {condition thenBranch elseBranch : Expr} {value : Value} :
    Evaluates condition (.ok (.value value)) → value.kind ≠ .boolean →
    Evaluates (.cond condition thenBranch elseBranch) (.error (.nonBooleanCondition value))
  | condError {condition thenBranch elseBranch : Expr} {error : EvalError} :
    Evaluates condition (.error error) →
    Evaluates (.cond condition thenBranch elseBranch) (.error error)

/-- An expression has one result at most. -/
theorem Evaluates.unique {expr : Expr} {result result' : Except EvalError Answer}
    (h : expr.Evaluates result) (h' : expr.Evaluates result') : result = result' := by
  induction h generalizing result' with
  | lit value => cases h'; rfl
  | lam binder body => cases h'; rfl
  | var id => cases h'; rfl
  | unary _ ih => cases h' with
    | unary h => cases ih h; rfl
    | unaryError h => cases ih h
  | unaryError _ ih => cases h' with
    | unary h => cases ih h
    | unaryError h => cases ih h; rfl
  | strict _ _ ihl ihr => cases h' with
    | strict hl hr => cases ihl hl; cases ihr hr; rfl
    | strictLeft hl => cases ihl hl
    | strictRight hl hr => cases ihr hr
  | strictLeft _ ih => cases h' with
    | strict hl hr => cases ih hl
    | strictLeft hl => cases ih hl; rfl
    | strictRight hl hr => cases ih hl
  | strictRight _ _ ihl ihr => cases h' with
    | strict hl hr => cases ihr hr
    | strictLeft hl => cases ihl hl
    | strictRight hl hr => cases ihr hr; rfl
  | apply _ _ ihf ihb => cases h' with
    | apply hf hb => cases ihf hf; exact ihb hb
    | applyValue hf => cases ihf hf
    | applyError hf => cases ihf hf
  | applyValue _ ih => cases h' with
    | apply hf hb => cases ih hf
    | applyValue hf => cases ih hf; rfl
    | applyError hf => cases ih hf
  | applyError _ ih => cases h' with
    | apply hf hb => cases ih hf
    | applyValue hf => cases ih hf
    | applyError hf => cases ih hf; rfl
  | cond _ _ ihc ihb => cases h' with
    | cond hc hb => cases ihc hc; exact ihb hb
    | condOther hc hne => cases ihc hc; exact absurd rfl hne
    | condError hc => cases ihc hc
  | condOther _ hne ih => cases h' with
    | cond hc hb => cases ih hc; exact absurd rfl hne
    | condOther hc hne' => cases ih hc; rfl
    | condError hc => cases ih hc
  | condError _ ih => cases h' with
    | cond hc hb => cases ih hc
    | condOther hc hne => cases ih hc
    | condError hc => cases ih hc; rfl

end Expr

end Lambda94
