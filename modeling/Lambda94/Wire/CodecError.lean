import Lambda94.Text.Decimal
import Lambda94.Text.Quoted

/-!
# Codec errors

What can stand in the way of encoding for the wire or decoding from it.
-/

namespace Lambda94

/-- Why a text or an integer cannot be encoded or decoded. -/
inductive CodecError
  /-- A character of an integer body is not a digit. -/
  | invalidDigit (digit body : Text)
  /-- Integer bodies carry no sign. -/
  | negativeInteger (n : Int)
  /-- A character of a string is outside the string alphabet. -/
  | unencodableCharacter (char text : Text)
  /-- A variable would be read back as another one. -/
  | ambiguousVariable (id : Int)
deriving DecidableEq, Repr

namespace CodecError

/-- The name of the kind of a codec error. -/
def kind : CodecError → String
  | .invalidDigit .. => "InvalidDigit"
  | .negativeInteger _ => "NegativeInteger"
  | .unencodableCharacter .. => "UnencodableCharacter"
  | .ambiguousVariable _ => "AmbiguousVariable"

/-- The message of a codec error. -/
def message : CodecError → Text
  | .invalidDigit digit body =>
    "invalid base-94 digit '" ++ digit ++ "' in integer body \"" ++ body ++ "\""
  | .negativeInteger n =>
    "cannot encode negative integer " ++ Decimal.ofInt n ++ " as a base-94 body"
  | .unencodableCharacter char _ =>
    "character " ++ Text.quoted char ++ " has no wire encoding"
  | .ambiguousVariable id =>
    "variable v" ++ Decimal.ofInt id ++ " would not refer to the same binder when read back"

/-- The text that could not be encoded or decoded. -/
def input : CodecError → Text
  | .invalidDigit _ body => body
  | .negativeInteger n => Decimal.ofInt n
  | .unencodableCharacter _ text => text
  | .ambiguousVariable id => "v" ++ Decimal.ofInt id

end CodecError

end Lambda94
