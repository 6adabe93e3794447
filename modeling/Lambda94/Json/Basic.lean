import Lambda94.Number.Basic
import Lambda94.Text.Decimal

/-!
# JSON documents

JSON values, with the members of an object in the order in which they are visited: members whose
names are array indices come first, in ascending order, and the others follow in the order in which
their names first occur.  Of two members with one name the later value counts.

Numbers of JSON are floating-point numbers.  An integer of any size is written as an object with
the single member `__bigint__`, whose value is the integer in decimal.
-/

namespace Lambda94

/-- A JSON value. -/
inductive Json
  | null
  | bool (b : Bool)
  | number (x : Number)
  | string (s : Text)
  | array (items : List Json)
  | object (members : List (Text × Json))
deriving Repr, Inhabited

namespace Json

/-! ### Objects -/

/-- The array index that a name is, if it is one. -/
def index? (name : Text) : Option Nat :=
  if name.head? = some (Decimal.digitUnit 0) ∧ name.length ≠ 1 then none
  else (Decimal.toNat? name).filter (· < 0xFFFFFFFF)

/-- Gives a name a value, in the place of an earlier value of that name. -/
def put (members : List (Text × Json)) (name : Text) (value : Json) : List (Text × Json) :=
  if members.any fun m => m.1 == name then
    members.map fun m => if m.1 == name then (name, value) else m
  else members ++ [(name, value)]

/-- The object with the given members, as they follow each other in a text. -/
def ofMembers (members : List (Text × Json)) : Json :=
  let distinct := members.foldl (fun ms m => put ms m.1 m.2) []
  let indexed := distinct.filterMap fun m => (index? m.1).map fun i => (i, m)
  let named := distinct.filter fun m => (index? m.1).isNone
  .object ((indexed.mergeSort fun a b => a.1 ≤ b.1).map Prod.snd ++ named)

/-- The value of the member with a given name. -/
def member? (members : List (Text × Json)) (name : String) : Option Json :=
  members.lookup (name : Text)

/-- The string that a part of a document is. -/
def string? : Option Json → Option Text
  | some (.string s) => some s
  | _ => none

/-! ### Tagged integers -/

/-- The name of the only member of a tagged integer. -/
def integerTag : Text := "__bigint__"

/-- The JSON form of an integer of any size. -/
def ofInt (n : Int) : Json := .object [(integerTag, .string (Decimal.ofInt n))]

/-- The integer that a member `__bigint__` denotes. -/
def payload? : Json → Option Int
  | .string s => Decimal.toInt? s
  | _ => none

/-- The tagged integer that a value is; whatever other members it has do not count. -/
def toInt? : Json → Option Int
  | .object members => (members.lookup integerTag).bind payload?
  | _ => none

/-- The members of an object that is not a tagged integer. -/
def members? : Json → Option (List (Text × Json))
  | .object members => if (members.lookup integerTag).isSome then none else some members
  | _ => none

mutual

/-- A tagged integer occurs somewhere in a value. -/
def hasInteger : Json → Bool
  | .array items => anyHasInteger items
  | .object members => (members.lookup integerTag).isSome || anyMemberHasInteger members
  | _ => false

/-- A tagged integer occurs in one of the values. -/
def anyHasInteger : List Json → Bool
  | [] => false
  | item :: items => item.hasInteger || anyHasInteger items

/-- A tagged integer occurs in one of the members. -/
def anyMemberHasInteger : List (Text × Json) → Bool
  | [] => false
  | (_, value) :: members => value.hasInteger || anyMemberHasInteger members

end

end Json

end Lambda94
