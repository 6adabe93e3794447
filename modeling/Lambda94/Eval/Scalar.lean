import Lambda94.Eval.Error
import Lambda94.Wire.Cipher
import Lambda94.Wire.Integer

/-!
# Operators on values

The strict operators, applied to values.  Operands are checked from left to right.  Integer results
wrap to 64 bits, division goes toward zero and the remainder has the sign of the dividend.  Strings
are counted in characters.
-/

namespace Lambda94

namespace Value

/-- The integer operand of an operator. -/
def asInt (operator : Operator) : Value → Except EvalError Int
  | .int n => .ok n
  | v => .error (.typeMismatch operator .integer v)

/-- The boolean operand of an operator. -/
def asBool (operator : Operator) : Value → Except EvalError Bool
  | .bool b => .ok b
  | v => .error (.typeMismatch operator .boolean v)

/-- The string operand of an operator. -/
def asString (operator : Operator) : Value → Except EvalError Text
  | .str s => .ok s
  | v => .error (.typeMismatch operator .string v)

/-- The number that a string spells in base 94, each character by its place in the alphabet. -/
def ofSpelling (s : Text) : Except EvalError Value :=
  match Wire.decodeInteger (Wire.encodeString s) with
  | .ok n => .ok (.ofInt n)
  | .error error => .error (.codec error)

/-- The string that spells an integer in base 94; a negative integer has no digits. -/
def spell (n : Int) : Value :=
  if n < 0 then .str [] else .str (Wire.decodeString (Wire.encodeNat n.toNat))

end Value

/-- Applies a unary operator to a value. -/
def UnaryOp.eval (op : UnaryOp) (operand : Value) : Except EvalError Value := do
  match op with
  | .negate => return .ofInt (-(← operand.asInt (.unary op)))
  | .logicalNot => return .bool !(← operand.asBool (.unary op))
  | .stringToInt => Value.ofSpelling (← operand.asString (.unary op))
  | .intToString => return Value.spell (← operand.asInt (.unary op))

namespace StrictOp

/-- The operator as errors name it. -/
abbrev operator (op : StrictOp) : Operator := .binary (.strict op)

/-- Both operands of an arithmetic operator. -/
def integers (op : StrictOp) (left right : Value) : Except EvalError (Int × Int) := do
  let a ← left.asInt op.operator
  let b ← right.asInt op.operator
  return (a, b)

/-- Both operands of a division, of which the second is not zero. -/
def divisionOperands (op : StrictOp) (left right : Value) : Except EvalError (Int × Int) := do
  let (a, b) ← op.integers left right
  if b = 0 then .error (.divisionByZero op) else return (a, b)

theorem divisionOperands_int (op : StrictOp) (x y : Int) :
    op.divisionOperands (.int x) (.int y) =
      if y = 0 then .error (.divisionByZero op) else .ok (x, y) := rfl

/-- Both operands of a logical operator. -/
def booleans (op : StrictOp) (left right : Value) : Except EvalError (Bool × Bool) := do
  let a ← left.asBool op.operator
  let b ← right.asBool op.operator
  return (a, b)

/-- The count and the characters that a string is cut by. -/
def cutOperands (op : StrictOp) (left right : Value) : Except EvalError (Nat × List Text) := do
  let count ← left.asInt op.operator
  let cs := Text.characters (← right.asString op.operator)
  if count < 0 ∨ (cs.length : Int) < count then .error (.countOutOfRange op count cs.length)
  else return (count.toNat, cs)

/-- Applies a strict operator to two values. -/
def eval (op : StrictOp) (left right : Value) : Except EvalError Value := do
  match op with
  | .add => let (a, b) ← op.integers left right; return .ofInt (a + b)
  | .sub => let (a, b) ← op.integers left right; return .ofInt (a - b)
  | .mul => let (a, b) ← op.integers left right; return .ofInt (a * b)
  | .div => let (a, b) ← op.divisionOperands left right; return .ofInt (a.tdiv b)
  | .mod => let (a, b) ← op.divisionOperands left right; return .ofInt (a.tmod b)
  | .less => let (a, b) ← op.integers left right; return .bool (a < b)
  | .greater => let (a, b) ← op.integers left right; return .bool (b < a)
  | .equal =>
    if left.kind = right.kind then return .bool (left = right)
    else .error (.typeMismatch op.operator left.kind right)
  | .or => let (a, b) ← op.booleans left right; return .bool (a || b)
  | .and => let (a, b) ← op.booleans left right; return .bool (a && b)
  | .concat =>
    let a ← left.asString op.operator
    let b ← right.asString op.operator
    return .str (a ++ b)
  | .take => let (n, cs) ← op.cutOperands left right; return .str (cs.take n).flatten
  | .drop => let (n, cs) ← op.cutOperands left right; return .str (cs.drop n).flatten

end StrictOp

end Lambda94
