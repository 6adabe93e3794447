import Lambda94.Expr.Basic
import Lambda94.Wire.Cipher
import Lambda94.Wire.Integer

/-!
# Expressions on the wire

An expression is written as the tokens of a program that reads back as the same expression.  The
binders of a renamed program are negative and have no numeral, so every id is written by its
absolute value; a variable that this would make refer to another binder, or to none, is refused.
-/

namespace Lambda94

/-- The first character of a string that the string alphabet lacks. -/
def Wire.unencodable? (s : Text) : Option Text :=
  (Text.characters s).find? fun c => !letters.contains c

/-- The tokens of a value. -/
def Value.wireTokens : Value → Except CodecError (List Text)
  | .bool true => .ok ["T"]
  | .bool false => .ok ["F"]
  | .str s =>
    match Wire.unencodable? s with
    | some c => .error (.unencodableCharacter c s)
    | none => .ok ["S" ++ Wire.encodeString s]
  | .int n =>
    if n < 0 then .ok ["U-", "I" ++ Wire.encodeNat n.natAbs]
    else .ok ["I" ++ Wire.encodeNat n.natAbs]

/-- The binder that the numeral of `id` refers to, among the binders around it, innermost
first. -/
def resolve? (binders : List Int) (id : Int) : Option Int :=
  binders.find? fun binder => binder.natAbs == id.natAbs

/-- A variable written by its absolute value refers to the binder that it names: to `id` itself,
or, if no binder has its numeral, to a free variable, whose id is not negative. -/
def readsBack (binders : List Int) (id : Int) : Bool :=
  match resolve? binders id with
  | some binder => binder == id
  | none => 0 ≤ id

/-- The tokens of an expression inside the given binders, innermost first. -/
def Expr.wireTokens (binders : List Int) : Expr → Except CodecError (List Text)
  | .lit value => value.wireTokens
  | .unary op operand => do
    let operand ← operand.wireTokens binders
    return ("U" ++ Text.ofChar op.code) :: operand
  | .binary op left right => do
    let left ← left.wireTokens binders
    let right ← right.wireTokens binders
    return ("B" ++ Text.ofChar op.code) :: (left ++ right)
  | .cond c t e => do
    let c ← c.wireTokens binders
    let t ← t.wireTokens binders
    let e ← e.wireTokens binders
    return "?" :: (c ++ t ++ e)
  | .lam binder body => do
    let body ← body.wireTokens (binder :: binders)
    return ("L" ++ Wire.encodeNat binder.natAbs) :: body
  | .var id =>
    if readsBack binders id then .ok ["v" ++ Wire.encodeNat id.natAbs]
    else .error (.ambiguousVariable id)

/-- The program text of an expression. -/
def Expr.toWire (expr : Expr) : Except CodecError Text :=
  (expr.wireTokens []).map (List.intercalate " ")

end Lambda94
