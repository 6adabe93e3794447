import Lambda94.Json.Basic
import Lambda94.Text.Quoted

/-!
# Reading JSON

A strict reader: four characters of white space, no comments, no trailing commas, no leading
zeros.  Each reader returns the text after what it has read, or nothing if the text is not JSON.
Patterns name the characters of JSON by their units, with the character beside them.
-/

namespace Lambda94.Json

/-- The white space of JSON. -/
def isSpace (u : UInt16) : Bool := u == 0x20 || u == 0x09 || u == 0x0A || u == 0x0D

/-- The text after leading white space. -/
def skipSpace (text : Text) : Text := text.dropWhile isSpace

/-! ### Strings -/

/-- The unit of a one-letter escape. -/
def unescape? : UInt16 → Option UInt16
  | 0x22 => some 0x22 -- "
  | 0x5C => some 0x5C -- \
  | 0x2F => some 0x2F -- /
  | 0x62 => some 0x08 -- b
  | 0x66 => some 0x0C -- f
  | 0x6E => some 0x0A -- n
  | 0x72 => some 0x0D -- r
  | 0x74 => some 0x09 -- t
  | _ => none

/-- The unit written by four hexadecimal digits. -/
def hexUnit? (digits : Text) : Option UInt16 :=
  (digits.mapM Text.hexValue?).map fun ds => UInt16.ofNat (Numeral.value 16 ds)

/-- Reads the rest of a string up to its closing quote.  An escape gives the unit that it names, be
it half of a pair, and every other unit stands for itself. -/
def readString : Text → Option (Text × Text)
  | [] => none
  | 0x22 :: rest => some ([], rest) -- "
  | 0x5C :: 0x75 :: a :: b :: c :: d :: rest => do -- \u
    let unit ← hexUnit? [a, b, c, d]
    let (units, rest) ← readString rest
    some (unit :: units, rest)
  | 0x5C :: c :: rest => do -- \
    let unit ← unescape? c
    let (units, rest) ← readString rest
    some (unit :: units, rest)
  | u :: rest =>
    if u.toNat < 0x20 || u == Text.backslash then none
    else do
      let (units, rest) ← readString rest
      some (u :: units, rest)

/-! ### Numbers -/

/-- Reads a run of decimal digits, which may be empty. -/
def readDigits (text : Text) : List Nat × Text :=
  let (digits, rest) := text.span fun u => (Decimal.digit? u).isSome
  (digits.filterMap Decimal.digit?, rest)

/-- Reads the digits after a decimal point, if there is one. -/
def readFraction : Text → Option (List Nat × Text)
  | 0x2E :: text => -- .
    let (digits, rest) := readDigits text
    if digits.isEmpty then none else some (digits, rest)
  | text => some ([], text)

/-- Reads the digits of an exponent with its sign. -/
def readSigned (negative : Bool) (text : Text) : Option (Int × Text) :=
  let (digits, rest) := readDigits text
  let n : Int := Numeral.value 10 digits
  if digits.isEmpty then none else some (if negative then -n else n, rest)

/-- Reads an exponent of ten, if there is one. -/
def readExponent : Text → Option (Int × Text)
  | 0x65 :: text | 0x45 :: text => -- e, E
    match text with
    | 0x2D :: text => readSigned true text -- -
    | 0x2B :: text => readSigned false text -- +
    | text => readSigned false text
  | text => some (0, text)

/-- Reads a number without its sign. -/
def readMagnitude (negative : Bool) (text : Text) : Option (Number × Text) := do
  let (whole, rest) := readDigits text
  if whole.isEmpty || (whole.head? == some 0 && whole.length != 1) then none
  let (fraction, rest) ← readFraction rest
  let (exponent, rest) ← readExponent rest
  let mantissa := Numeral.value 10 (whole ++ fraction)
  some (Number.ofDecimal negative mantissa (exponent - fraction.length), rest)

/-- Reads a number. -/
def readNumber : Text → Option (Number × Text)
  | 0x2D :: text => readMagnitude true text -- -
  | text => readMagnitude false text

/-! ### Values -/

/-- Reads the name of a member and the colon after it. -/
def readName (text : Text) : Option (Text × Text) :=
  match skipSpace text with
  | 0x22 :: rest => do -- "
    let (name, rest) ← readString rest
    match skipSpace rest with
    | 0x3A :: rest => some (name, rest) -- :
    | _ => none
  | _ => none

/-- Reads at most `bound` items and the bracket that closes their array. -/
def readItems (read : Text → Option (Json × Text)) : Nat → Text → Option (List Json × Text)
  | 0, _ => none
  | bound + 1, text => do
    let (item, rest) ← read text
    match skipSpace rest with
    | 0x2C :: rest => -- ,
      let (items, rest) ← readItems read bound rest
      some (item :: items, rest)
    | 0x5D :: rest => some ([item], rest) -- ]
    | _ => none

/-- Reads at most `bound` members and the brace that closes their object. -/
def readMembers (read : Text → Option (Json × Text)) :
    Nat → Text → Option (List (Text × Json) × Text)
  | 0, _ => none
  | bound + 1, text => do
    let (name, rest) ← readName text
    let (value, rest) ← read rest
    match skipSpace rest with
    | 0x2C :: rest => -- ,
      let (members, rest) ← readMembers read bound rest
      some ((name, value) :: members, rest)
    | 0x7D :: rest => some ([(name, value)], rest) -- a closing brace
    | _ => none

/-- Reads a value.  Every level of nesting and every item takes a unit at least, so a bound of the
length of the text is never reached before the text ends. -/
def readValue : Nat → Text → Option (Json × Text)
  | 0, _ => none
  | bound + 1, text =>
    match skipSpace text with
    | 0x6E :: 0x75 :: 0x6C :: 0x6C :: rest => some (.null, rest) -- null
    | 0x74 :: 0x72 :: 0x75 :: 0x65 :: rest => some (.bool true, rest) -- true
    | 0x66 :: 0x61 :: 0x6C :: 0x73 :: 0x65 :: rest => some (.bool false, rest) -- false
    | 0x22 :: rest => do -- "
      let (s, rest) ← readString rest
      some (.string s, rest)
    | 0x5B :: rest => -- [
      match skipSpace rest with
      | 0x5D :: rest => some (.array [], rest) -- ]
      | rest => do
        let (items, rest) ← readItems (readValue bound) bound rest
        some (.array items, rest)
    | 0x7B :: rest => -- an opening brace
      match skipSpace rest with
      | 0x7D :: rest => some (.object [], rest) -- a closing brace
      | rest => do
        let (members, rest) ← readMembers (readValue bound) bound rest
        some (ofMembers members, rest)
    | rest => do
      let (x, rest) ← readNumber rest
      some (.number x, rest)

/-- The value that a text denotes. -/
def ofText? (text : Text) : Option Json := do
  let (json, rest) ← readValue text.length text
  if (skipSpace rest).isEmpty then some json else none

end Lambda94.Json
