import Lambda94.Text.Basic

/-!
# Operators

Each operator is known by a one-character code on the wire, by a label in messages and by a symbol
in readable output.  A binary operator is either strict in both operands or the application of a
function, which is lazy in its argument.
-/

namespace Lambda94

/-! ### Unary operators -/

/-- The operators on one value. -/
inductive UnaryOp
  | negate
  | logicalNot
  | stringToInt
  | intToString
deriving DecidableEq, Repr

namespace UnaryOp

/-- The unary operators, in the order in which a random program picks them. -/
def all : List UnaryOp := [.negate, .logicalNot, .stringToInt, .intToString]

/-- The wire code of a unary operator. -/
def code : UnaryOp → Char
  | .negate => '-'
  | .logicalNot => '!'
  | .stringToInt => '#'
  | .intToString => '$'

/-- The name of a unary operator in messages. -/
def label : UnaryOp → String
  | .negate => "Negate"
  | .logicalNot => "LogicalNot"
  | .stringToInt => "StringToInt"
  | .intToString => "IntToString"

/-- The name of a unary operator in readable output. -/
def symbol : UnaryOp → String
  | .negate => "neg"
  | .logicalNot => "not"
  | .stringToInt => "str->int"
  | .intToString => "int->str"

/-- The unary operator written by a code. -/
def ofCode? (code : Text) : Option UnaryOp := all.find? fun op => code == Text.ofChar op.code

end UnaryOp

/-! ### Binary operators -/

/-- The operators on two values. -/
inductive StrictOp
  | add
  | sub
  | mul
  | div
  | mod
  | less
  | greater
  | equal
  | or
  | and
  | concat
  | take
  | drop
deriving DecidableEq, Repr

/-- The operators on two expressions. -/
inductive BinaryOp
  | strict (op : StrictOp)
  | apply
deriving DecidableEq, Repr

namespace StrictOp

/-- The strict operators, in the order in which a random program picks them. -/
def all : List StrictOp :=
  [.add, .sub, .mul, .div, .mod, .less, .greater, .equal, .or, .and, .concat, .take, .drop]

/-- The wire code of a strict operator. -/
def code : StrictOp → Char
  | .add => '+'
  | .sub => '-'
  | .mul => '*'
  | .div => '/'
  | .mod => '%'
  | .less => '<'
  | .greater => '>'
  | .equal => '='
  | .or => '|'
  | .and => '&'
  | .concat => '.'
  | .take => 'T'
  | .drop => 'D'

/-- The name of a strict operator in messages. -/
def label : StrictOp → String
  | .add => "Add"
  | .sub => "Sub"
  | .mul => "Mul"
  | .div => "Div"
  | .mod => "Mod"
  | .less => "Less"
  | .greater => "Greater"
  | .equal => "Equal"
  | .or => "Or"
  | .and => "And"
  | .concat => "Concat"
  | .take => "Take"
  | .drop => "Drop"

/-- The infix symbol of a strict operator in readable output. -/
def symbol : StrictOp → String
  | .add => "+"
  | .sub => "-"
  | .mul => "*"
  | .div => "/"
  | .mod => "%"
  | .less => "<"
  | .greater => ">"
  | .equal => "=="
  | .or => "||"
  | .and => "&&"
  | .concat => "++"
  | .take => "take"
  | .drop => "drop"

end StrictOp

namespace BinaryOp

/-- The binary operators, in the order in which a random program picks them. -/
def all : List BinaryOp := StrictOp.all.map .strict ++ [.apply]

/-- The wire code of a binary operator. -/
def code : BinaryOp → Char
  | .strict op => op.code
  | .apply => '$'

/-- The name of a binary operator in messages. -/
def label : BinaryOp → String
  | .strict op => op.label
  | .apply => "Apply"

/-- The binary operator written by a code. -/
def ofCode? (code : Text) : Option BinaryOp := all.find? fun op => code == Text.ofChar op.code

end BinaryOp

/-! ### Codes -/

theorem UnaryOp.ofCode?_code (op : UnaryOp) :
    UnaryOp.ofCode? (Text.ofChar op.code) = some op := by
  cases op <;> rfl

theorem BinaryOp.ofCode?_code (op : BinaryOp) :
    BinaryOp.ofCode? (Text.ofChar op.code) = some op := by
  rcases op with op | _
  · cases op <;> rfl
  · rfl

theorem UnaryOp.mem_all (op : UnaryOp) : op ∈ UnaryOp.all := by
  cases op <;> decide

theorem BinaryOp.mem_all (op : BinaryOp) : op ∈ BinaryOp.all := by
  rcases op with op | _
  · cases op <;> decide
  · decide

/-- A code is read as a unary operator exactly if it is the code of that operator. -/
theorem UnaryOp.ofCode?_eq_some_iff {s : Text} {op : UnaryOp} :
    UnaryOp.ofCode? s = some op ↔ s = Text.ofChar op.code := by
  refine ⟨fun h => ?_, fun h => h ▸ ofCode?_code op⟩
  simpa using List.find?_some h

/-- A code is read as a binary operator exactly if it is the code of that operator. -/
theorem BinaryOp.ofCode?_eq_some_iff {s : Text} {op : BinaryOp} :
    BinaryOp.ofCode? s = some op ↔ s = Text.ofChar op.code := by
  refine ⟨fun h => ?_, fun h => h ▸ ofCode?_code op⟩
  simpa using List.find?_some h

end Lambda94
