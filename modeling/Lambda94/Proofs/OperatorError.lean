import Lambda94.Eval.Scalar

/-!
# Errors of operators

An operator that is applied to values fails with an error about these values: a wrong kind, a zero
divisor, a count out of range or a character that is no digit.  What is shown of a value is an
operand: `UnaryOp.blames_eval` and `StrictOp.blames_eval`.  No operator runs out of steps or meets a
variable: `UnaryOp.failsOnly_eval` and `StrictOp.failsOnly_eval`.
-/

namespace Lambda94

/-- The error is about the operands of an operator. -/
inductive EvalError.OfOperator : EvalError → Prop
  | typeMismatch (operator : Operator) (expected : Kind) (actual : Value) :
    OfOperator (.typeMismatch operator expected actual)
  | divisionByZero (op : StrictOp) : OfOperator (.divisionByZero op)
  | countOutOfRange (op : StrictOp) (count : Int) (length : Nat) :
    OfOperator (.countOutOfRange op count length)
  | codec (error : CodecError) : OfOperator (.codec error)

/-- The error is about operands of an operator that have the property. -/
inductive EvalError.Blames (P : Value → Prop) : EvalError → Prop
  | typeMismatch (operator : Operator) (expected : Kind) {actual : Value} (operand : P actual) :
    Blames P (.typeMismatch operator expected actual)
  | divisionByZero (op : StrictOp) (operand : P (.int 0)) : Blames P (.divisionByZero op)
  | countOutOfRange (op : StrictOp) {count : Int} (length : Nat) (operand : P (.int count)) :
    Blames P (.countOutOfRange op count length)
  | codec (error : CodecError) : Blames P (.codec error)

/-- Every error that the computation can end with has the property. -/
def FailsOnly {α : Type} (P : EvalError → Prop) (x : Except EvalError α) : Prop :=
  ∀ error, x = .error error → P error

section

variable {α β : Type} {P Q : EvalError → Prop}

theorem FailsOnly.ok (a : α) : FailsOnly P (.ok a) := nofun

theorem FailsOnly.error {error : EvalError} (h : P error) :
    FailsOnly P (.error error : Except EvalError α) := by
  rintro _ ⟨⟩
  exact h

theorem FailsOnly.mono {x : Except EvalError α} (hx : FailsOnly P x)
    (imp : ∀ error, P error → Q error) : FailsOnly Q x := fun error h => imp error (hx error h)

theorem FailsOnly.bind {x : Except EvalError α} {f : α → Except EvalError β} (hx : FailsOnly P x)
    (hf : ∀ a, FailsOnly P (f a)) : FailsOnly P (x >>= f) := by
  cases x with
  | ok a => exact hf a
  | error error => exact .error (hx error rfl)

theorem FailsOnly.map {x : Except EvalError α} (hx : FailsOnly P x) (f : α → β) :
    FailsOnly P (x.map f) := by
  cases x with
  | ok a => exact .ok (f a)
  | error error => exact .error (hx error rfl)

end

open EvalError (Blames OfOperator)

theorem EvalError.Blames.ofOperator {P : Value → Prop} {error : EvalError}
    (h : error.Blames P) : error.OfOperator := by
  cases h with
  | typeMismatch operator expected => exact .typeMismatch operator expected _
  | divisionByZero op => exact .divisionByZero op
  | countOutOfRange op => exact .countOutOfRange op _ _
  | codec error => exact .codec error

/-! ### Operands -/

variable {P : Value → Prop}

namespace Value

variable {value : Value}

theorem blames_asInt (operator : Operator) (h : P value) :
    FailsOnly (Blames P) (value.asInt operator) := by
  cases value with
  | int n => exact .ok n
  | _ => exact .error (.typeMismatch _ _ h)

theorem blames_asBool (operator : Operator) (h : P value) :
    FailsOnly (Blames P) (value.asBool operator) := by
  cases value with
  | bool b => exact .ok b
  | _ => exact .error (.typeMismatch _ _ h)

theorem blames_asString (operator : Operator) (h : P value) :
    FailsOnly (Blames P) (value.asString operator) := by
  cases value with
  | str s => exact .ok s
  | _ => exact .error (.typeMismatch _ _ h)

theorem blames_ofSpelling (s : Text) : FailsOnly (Blames P) (ofSpelling s) := by
  unfold ofSpelling
  split
  · exact .ok _
  · exact .error (.codec _)

end Value

namespace StrictOp

variable {a b : Value}

theorem blames_integers (op : StrictOp) (ha : P a) (hb : P b) :
    FailsOnly (Blames P) (op.integers a b) :=
  (a.blames_asInt _ ha).bind fun _ => (b.blames_asInt _ hb).bind fun _ => .ok _

theorem blames_booleans (op : StrictOp) (ha : P a) (hb : P b) :
    FailsOnly (Blames P) (op.booleans a b) :=
  (a.blames_asBool _ ha).bind fun _ => (b.blames_asBool _ hb).bind fun _ => .ok _

theorem blames_divisionOperands (op : StrictOp) (ha : P a) (hb : P b) :
    FailsOnly (Blames P) (op.divisionOperands a b) := by
  cases a with
  | int x =>
    cases b with
    | int y =>
      rw [divisionOperands_int]
      split
      -- the zero that is reported is the divisor
      · next hzero => exact .error (.divisionByZero op (hzero ▸ hb))
      · exact .ok _
    | _ => exact .error (.typeMismatch _ _ hb)
  | _ => exact .error (.typeMismatch _ _ ha)

theorem blames_cutOperands (op : StrictOp) (ha : P a) (hb : P b) :
    FailsOnly (Blames P) (op.cutOperands a b) := by
  cases a with
  | int count =>
    refine (b.blames_asString _ hb).bind fun _ => ?_
    dsimp only
    split
    · exact .error (.countOutOfRange op _ ha)
    · exact .ok _
  | _ => exact .error (.typeMismatch _ _ ha)

end StrictOp

/-! ### Operators -/

/-- An error of a unary operator blames the operand. -/
theorem UnaryOp.blames_eval (op : UnaryOp) {value : Value} (h : P value) :
    FailsOnly (Blames P) (op.eval value) := by
  cases op with
  | negate => exact (value.blames_asInt _ h).bind fun n => .ok _
  | logicalNot => exact (value.blames_asBool _ h).bind fun b => .ok _
  | stringToInt => exact (value.blames_asString _ h).bind fun s => Value.blames_ofSpelling s
  | intToString => exact (value.blames_asInt _ h).bind fun n => .ok _

/-- An error of a strict operator blames one of the operands. -/
theorem StrictOp.blames_eval (op : StrictOp) {a b : Value} (ha : P a) (hb : P b) :
    FailsOnly (Blames P) (op.eval a b) := by
  cases op with
  | add | sub | mul | less | greater => exact (blames_integers _ ha hb).bind fun _ => .ok _
  | div | mod => exact (blames_divisionOperands _ ha hb).bind fun _ => .ok _
  | equal =>
    show FailsOnly (Blames P) (if a.kind = b.kind then _ else _)
    split
    · exact .ok _
    · exact .error (.typeMismatch _ _ hb)
  | or | and => exact (blames_booleans _ ha hb).bind fun _ => .ok _
  | concat =>
    exact (a.blames_asString _ ha).bind fun _ => (b.blames_asString _ hb).bind fun _ => .ok _
  | take | drop => exact (blames_cutOperands _ ha hb).bind fun _ => .ok _

theorem UnaryOp.failsOnly_eval (op : UnaryOp) (value : Value) :
    FailsOnly OfOperator (op.eval value) :=
  (op.blames_eval (P := (· = value)) rfl).mono fun _ => Blames.ofOperator

theorem StrictOp.failsOnly_eval (op : StrictOp) (a b : Value) :
    FailsOnly OfOperator (op.eval a b) :=
  (op.blames_eval (P := fun value => value = a ∨ value = b) (.inl rfl) (.inr rfl)).mono
    fun _ => Blames.ofOperator

end Lambda94
