import Lambda94.Number.Basic

/-!
# Shortest decimals

The shortest decimal that rounds to a given binary number; of the decimals of that length the
nearest one, and of two equally near ones the even one.  Everything is compared in whole numbers.
-/

namespace Lambda94.Number

/-- The decimal `0.d₁d₂… * 10 ^ point` with the digits `d₁ d₂ …`. -/
structure Digits where
  digits : List Nat
  point : Int
deriving DecidableEq, Repr

/-- The position of the decimal point of the positive number `m * 2 ^ e`: the number of digits in
front of it, or minus the number of zeros behind it. -/
def pointOf (m : Nat) (e : Int) : Int :=
  let (p, q) := scale m 1 (-e)
  (Numeral.digits 10 (p * Nat.pow 10 340 / q)).length - 340

/-- The better of the two neighbours of `m * 2 ^ e` among the multiples of `10 ^ t`, if one of
them rounds to it.  Numbers are counted in units of a quarter of `2 ^ e`. -/
def candidate? (m : Nat) (e t : Int) : Option Nat :=
  let quarter := Nat.pow 10 (-t).toNat <<< (e - 2).toNat
  let step := Nat.pow 10 t.toNat <<< (2 - e).toNat
  let x := 4 * m * quarter
  let lower := (4 * m - if m = mantissaBound / 2 ∧ minExponent < e then 1 else 2) * quarter
  let upper := (4 * m + 2) * quarter
  let below := x / step
  let above := below + 1
  let low := lower < below * step ∨ (m % 2 = 0 ∧ lower = below * step)
  let high := above * step < upper ∨ (m % 2 = 0 ∧ above * step = upper)
  let down := x - below * step
  let up := above * step - x
  if low ∧ (¬high ∨ down < up ∨ (down = up ∧ below % 2 = 0)) then some below
  else if high then some above
  else none

/-- The digits of the number `c * 10 ^ t`, without zeros at the end. -/
def Digits.ofMultiple (c : Nat) (t : Int) : Digits :=
  let ds := Numeral.digits 10 c
  ⟨(ds.reverse.dropWhile (· == 0)).reverse, t + ds.length⟩

/-- The shortest decimal that rounds to the positive number `m * 2 ^ e`.  Seventeen digits always
suffice. -/
def shortest (m : Nat) (e : Int) : Digits :=
  let point := pointOf m e
  let found := (List.range 17).findSome? fun k =>
    let t := point - (k + 1 : Nat)
    (candidate? m e t).map fun c => Digits.ofMultiple c t
  found.getD ⟨[], point⟩

end Lambda94.Number
