import Lambda94.Numeral
import Lambda94.Value
import Lambda94.Wire.Alphabet
import Lambda94.Wire.CodecError

/-!
# Integer bodies

An integer body is a base-94 numeral without a sign, most significant digit first.  Reading wraps
the number to 64 bits; writing takes any natural number.
-/

namespace Lambda94.Wire

/-- The digits of an integer body, or its first character that is no digit. -/
def bodyDigits (body : Text) : Except CodecError (List Nat) :=
  (Text.characters body).mapM fun c =>
    match digitValue? c with
    | some d => .ok d
    | none => .error (.invalidDigit c body)

/-- Reads an integer body. -/
def decodeInteger (body : Text) : Except CodecError Int :=
  (bodyDigits body).map fun ds => wrap (Numeral.value base ds)

/-- The integer body of a natural number. -/
def encodeNat (n : Nat) : Text := (Numeral.digits base n).map fun (d : Nat) => charAt d

/-- Writes an integer body. -/
def encodeInteger (n : Int) : Except CodecError Text :=
  if n < 0 then .error (.negativeInteger n) else .ok (encodeNat n.toNat)

end Lambda94.Wire
