import Lambda94.Numeral

/-!
# Binary floating-point numbers

Exact values of the 64-bit binary format: a sign, a whole mantissa below `2 ^ 53` and an exponent
of two.  Decimal input is rounded to the nearest such value, a half going to the even mantissa, so
that limits and JSON numbers have the value, and later the text, that the format gives them.
-/

namespace Lambda94

/-- A number of the 64-bit binary format. -/
inductive Number
  /-- The number `± mantissa * 2 ^ exponent`. -/
  | finite (negative : Bool) (mantissa : Nat) (exponent : Int)
  | infinite (negative : Bool)
deriving DecidableEq, Repr

namespace Number

/-- The least exponent. -/
def minExponent : Int := -1074

/-- The greatest exponent. -/
def maxExponent : Int := 971

/-- The whole numbers up to `2 ^ 53` are all in the format. -/
def mantissaBound : Nat := 0x20000000000000

/-- The quotient `p / q` rounded to the nearest whole number, a half going to the even one. -/
def roundQuotient (p q : Nat) : Nat :=
  if 2 * (p % q) < q ∨ (2 * (p % q) = q ∧ p / q % 2 = 0) then p / q else p / q + 1

/-- The fraction `p / q` in units of `2 ^ e`. -/
def scale (p q : Nat) (e : Int) : Nat × Nat := (p <<< (-e).toNat, q <<< e.toNat)

/-- The exponent for which the positive fraction `p / q` has a mantissa of 53 bits, or the least
exponent if that is greater. -/
def exponentOf (p q : Nat) : Int :=
  let e := (p.log2 : Int) - q.log2 - 53
  let (p', q') := scale p q e
  max minExponent (if mantissaBound * q' ≤ p' then e + 1 else e)

/-- The number nearest to `± p / q`. -/
def nearest (negative : Bool) (p q : Nat) : Number :=
  if p = 0 then .finite negative 0 minExponent
  else
    let e := exponentOf p q
    let (p', q') := scale p q e
    let m := roundQuotient p' q'
    let (m, e) := if m = mantissaBound then (mantissaBound / 2, e + 1) else (m, e)
    if maxExponent < e then .infinite negative else .finite negative m e

/-- The number nearest to `± m * 10 ^ e`.  Magnitudes far outside the range of the format are
settled by their number of digits, before any power of ten is taken. -/
def ofDecimal (negative : Bool) (m : Nat) (e : Int) : Number :=
  let length : Int := (Numeral.digits 10 m).length
  if m = 0 ∨ e + length < -330 then .finite negative 0 minExponent
  else if 310 < e + length then .infinite negative
  else nearest negative (m * Nat.pow 10 e.toNat) (Nat.pow 10 (-e).toNat)

/-- The number nearest to a natural number. -/
def ofNat (n : Nat) : Number := ofDecimal false n 0

/-- The integer that a number is, if it is one. -/
def toInt? : Number → Option Int
  | .infinite _ => none
  | .finite negative m e =>
    let (p, q) := scale m 1 (-e)
    if p % q = 0 then some (if negative then -(p / q : Nat) else (p / q : Nat)) else none

/-- The integer that a number is, if that integer and its neighbours are all in the format. -/
def toSafeInt? (x : Number) : Option Int := x.toInt?.filter fun n => n.natAbs < mantissaBound

/-- The whole part of a number, between the bounds `0` and `bound`. -/
def clamp (bound : Nat) : Number → Nat
  | .infinite negative => if negative then 0 else bound
  | .finite negative m e =>
    let (p, q) := scale m 1 (-e)
    if negative then 0 else min bound (p / q)

end Number

end Lambda94
