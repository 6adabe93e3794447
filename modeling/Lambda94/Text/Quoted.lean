import Lambda94.Text.Basic

/-!
# Quoted text

A text between double quotes, as JSON writes it: a quote and a backslash are escaped, a control
character is written by its short escape or by four lower-case hexadecimal digits, half of a pair is
written by its digits too, and every other character stands for itself.
-/

namespace Lambda94.Text

/-- The quotation mark. -/
def quotationMark : UInt16 := unit '"'

/-- The backslash. -/
def backslash : UInt16 := unit '\\'

/-- The hexadecimal digit of value `d`, in lower case. -/
def hexDigit (d : Nat) : UInt16 := UInt16.ofNat (if d < 10 then 48 + d else 87 + d)

/-- The value of a hexadecimal digit of either case. -/
def hexValue? (u : UInt16) : Option Nat :=
  let n := u.toNat
  if 48 ≤ n ∧ n < 58 then some (n - 48)
  else if 97 ≤ n ∧ n < 103 then some (n - 87)
  else if 65 ≤ n ∧ n < 71 then some (n - 55)
  else none

/-- The four hexadecimal digits of a unit. -/
def hexDigits (u : UInt16) : Text :=
  let n := u.toNat
  [hexDigit (n / 0x1000), hexDigit (n / 0x100 % 0x10), hexDigit (n / 0x10 % 0x10),
    hexDigit (n % 0x10)]

/-- A unit that is a character by itself, as it is written between quotes. -/
def escapeUnit (u : UInt16) : Text :=
  if u = quotationMark then [backslash, quotationMark]
  else if u = backslash then [backslash, backslash]
  else if u = 0x08 then [backslash, unit 'b']
  else if u = 0x09 then [backslash, unit 't']
  else if u = 0x0A then [backslash, unit 'n']
  else if u = 0x0C then [backslash, unit 'f']
  else if u = 0x0D then [backslash, unit 'r']
  else if u.toNat < 0x20 || isSurrogate u then backslash :: unit 'u' :: hexDigits u
  else [u]

/-- A character as it is written between quotes. -/
def escape : Text → Text
  | [u] => escapeUnit u
  | pair => pair

/-- A text between double quotes. -/
def quoted (text : Text) : Text :=
  quotationMark :: ((characters text).flatMap escape ++ [quotationMark])

theorem hexValue?_hexDigit {d : Nat} (h : d < 16) : hexValue? (hexDigit d) = some d := by
  have all : ∀ e ∈ List.range 16, hexValue? (hexDigit e) = some e := by decide
  exact all d (List.mem_range.2 h)

end Lambda94.Text
