import Lambda94.Json.Basic
import Lambda94.Number.Text
import Lambda94.Text.Quoted

/-!
# Writing JSON

A value is written in front of the text that follows it, either without any white space or with
every member and item on a line of its own, indented by a number of spaces for each level.
-/

namespace Lambda94.Json

/-- The text of a JSON number; the infinite numbers have none and become `null`. -/
def numberText : Number → Text
  | .infinite _ => "null"
  | x => x.text

/-- Breaks the line in front of `rest`, if lines are broken at all. -/
def breakLine (width depth : Nat) (rest : Text) : Text :=
  if width = 0 then rest
  else Text.unit '\n' :: (List.replicate (width * depth) (Text.unit ' ') ++ rest)

/-- Writes the name of a member in front of its value. -/
def writeName (width : Nat) (name rest : Text) : Text :=
  Text.quoted name ++ Text.unit ':' :: (if width = 0 then rest else Text.unit ' ' :: rest)

mutual

/-- Writes a value at the given depth in front of `rest`. -/
def write (width depth : Nat) : Json → Text → Text
  | .null, rest => "null" ++ rest
  | .bool true, rest => "true" ++ rest
  | .bool false, rest => "false" ++ rest
  | .number x, rest => numberText x ++ rest
  | .string s, rest => Text.quoted s ++ rest
  | .array [], rest => Text.unit '[' :: Text.unit ']' :: rest
  | .array (item :: items), rest =>
    Text.unit '[' :: breakLine width (depth + 1) (write width (depth + 1) item
      (writeItems width depth items (breakLine width depth (Text.unit ']' :: rest))))
  | .object [], rest => Text.unit '{' :: Text.unit '}' :: rest
  | .object ((name, value) :: members), rest =>
    Text.unit '{' :: breakLine width (depth + 1) (writeName width name (write width (depth + 1)
      value (writeMembers width depth members (breakLine width depth (Text.unit '}' :: rest)))))

/-- Writes the items after the first one. -/
def writeItems (width depth : Nat) : List Json → Text → Text
  | [], rest => rest
  | item :: items, rest =>
    Text.unit ',' :: breakLine width (depth + 1) (write width (depth + 1) item
      (writeItems width depth items rest))

/-- Writes the members after the first one. -/
def writeMembers (width depth : Nat) : List (Text × Json) → Text → Text
  | [], rest => rest
  | (name, value) :: members, rest =>
    Text.unit ',' :: breakLine width (depth + 1) (writeName width name (write width (depth + 1)
      value (writeMembers width depth members rest)))

end

/-- The text of a value, indented by `width` spaces for each level; with a width of zero it is a
single line without spaces. -/
def text (width : Nat) (json : Json) : Text := write width 0 json []

/-- The width of the indentation that a number asks for: its whole part, at most ten. -/
def indentation : Option Number → Nat
  | none => 0
  | some space => space.clamp 10

end Lambda94.Json
