import Lambda94.Text.Decimal
import Lambda94.Text.Quoted

/-!
# Values

What a program evaluates to: a string, a boolean or an integer.  Integers live in 64 bits, so every
integer a program computes passes through `Value.ofInt`, which wraps it; `wrap_eq_self` and
`wrap_wrap` say that wrapping keeps the integers in range and is needed once only, and
`wrap_add_wraps` and its neighbours that it may as well be left to the end.
-/

namespace Lambda94

/-- The kind of a value. -/
inductive Kind
  | string
  | boolean
  | integer
deriving DecidableEq, Repr

/-- The name of a kind, as messages and the JSON form spell it. -/
def Kind.name : Kind → String
  | .string => "string"
  | .boolean => "boolean"
  | .integer => "integer"

/-- The kinds of values. -/
def Kind.all : List Kind := [.string, .boolean, .integer]

/-- The kind with a given name. -/
def Kind.ofName? (name : Text) : Option Kind := all.find? fun kind => name == kind.name

/-- A value of the language. -/
inductive Value
  | str (s : Text)
  | bool (b : Bool)
  | int (n : Int)
deriving DecidableEq, Repr, Inhabited

/-- The integer in `[-2 ^ 63, 2 ^ 63)` that is congruent to `n` modulo `2 ^ 64`. -/
def wrap (n : Int) : Int := n.bmod 0x10000000000000000

namespace Value

/-- The integer value `n`, wrapped to 64 bits. -/
def ofInt (n : Int) : Value := .int (wrap n)

/-- The kind of a value. -/
def kind : Value → Kind
  | .str _ => .string
  | .bool _ => .boolean
  | .int _ => .integer

/-- A value as a reader sees it: a quoted string, `true` or `false`, a decimal integer. -/
def pretty : Value → Text
  | .str s => Text.quoted s
  | .bool true => "true"
  | .bool false => "false"
  | .int n => Decimal.ofInt n

end Value

/-! ### Names of kinds -/

theorem Kind.ofName?_name (kind : Kind) : Kind.ofName? kind.name = some kind := by
  cases kind <;> rfl

/-- A name is read as a kind exactly if it is the name of that kind. -/
theorem Kind.ofName?_eq_some_iff {s : Text} {kind : Kind} :
    Kind.ofName? s = some kind ↔ s = kind.name := by
  refine ⟨fun h => ?_, fun h => h ▸ ofName?_name kind⟩
  simpa using List.find?_some h

/-! ### Wrapping -/

theorem wrap_lower (n : Int) : -0x8000000000000000 ≤ wrap n := by
  rw [wrap, Int.bmod_def]; split <;> omega

theorem wrap_upper (n : Int) : wrap n < 0x8000000000000000 := by
  rw [wrap, Int.bmod_def]; split <;> omega

theorem wrap_eq_self {n : Int} (lower : -0x8000000000000000 ≤ n)
    (upper : n < 0x8000000000000000) : wrap n = n := by
  rw [wrap, Int.bmod_def]; split <;> omega

@[simp] theorem wrap_wrap (n : Int) : wrap (wrap n) = wrap n :=
  wrap_eq_self (wrap_lower n) (wrap_upper n)

@[simp] theorem wrap_neg_wrap (n : Int) : wrap (-wrap n) = wrap (-n) := Int.bmod_neg_bmod

@[simp] theorem wrap_add_wraps (a b : Int) : wrap (wrap a + wrap b) = wrap (a + b) :=
  Int.bmod_add_bmod.trans Int.add_bmod_bmod

@[simp] theorem wrap_sub_wraps (a b : Int) : wrap (wrap a - wrap b) = wrap (a - b) :=
  Int.bmod_sub_bmod.trans Int.sub_bmod_bmod

@[simp] theorem wrap_mul_wraps (a b : Int) : wrap (wrap a * wrap b) = wrap (a * b) :=
  Int.bmod_mul_bmod.trans Int.mul_bmod_bmod

end Lambda94
