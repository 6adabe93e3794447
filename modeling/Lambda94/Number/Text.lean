import Lambda94.Number.Shortest
import Lambda94.Text.Decimal

/-!
# The text of numbers

The shortest decimal of a number, positional from a millionth up to `10 ^ 21` and with an exponent
outside that range.  Zero is written without its sign.
-/

namespace Lambda94.Number

/-- The digits of a decimal as text. -/
def Digits.chars (d : Digits) : Text := d.digits.map Decimal.digitUnit

/-- The text of a positive decimal. -/
def Digits.text (d : Digits) : Text :=
  let ds := d.chars
  if ds.length ≤ d.point ∧ d.point ≤ 21 then
    ds ++ List.replicate (d.point.toNat - ds.length) (Decimal.digitUnit 0)
  else if 0 < d.point ∧ d.point ≤ 21 then
    ds.take d.point.toNat ++ Text.unit '.' :: ds.drop d.point.toNat
  else if -6 < d.point ∧ d.point ≤ 0 then
    "0." ++ (List.replicate (-d.point).toNat (Decimal.digitUnit 0) ++ ds)
  else
    let exponent := d.point - 1
    let sign := if exponent < 0 then Decimal.minus else Text.unit '+'
    let mantissa := match ds with
      | [] => []
      | [d] => [d]
      | d :: ds => d :: Text.unit '.' :: ds
    mantissa ++ Text.unit 'e' :: sign :: Decimal.ofNat exponent.natAbs

/-- A minus sign for negative numbers. -/
def signText (negative : Bool) : Text := if negative then [Decimal.minus] else []

/-- The text of a number. -/
def text : Number → Text
  | .infinite negative => signText negative ++ "Infinity"
  | .finite negative m e => if m = 0 then "0" else signText negative ++ (shortest m e).text

end Lambda94.Number
