import Lambda94.Text.Blank

/-!
# Tokens

A program is a list of tokens separated by blanks.  The first unit of a token is its indicator,
which selects the rule of the grammar; the rest is its body.
-/

namespace Lambda94

/-- A token of a program. -/
structure Token where
  /-- The first unit of the token. -/
  indicator : Text
  /-- The rest of the token. -/
  body : Text
  /-- The token as written. -/
  literal : Text
  /-- The position of the token in its program, counting from zero. -/
  offset : Int
deriving DecidableEq, Repr, Inhabited

namespace Token

/-- The token written as `literal`. -/
def ofLiteral (literal : Text) (offset : Int) : Token :=
  ⟨literal.take 1, literal.drop 1, literal, offset⟩

/-- The tokens of a text. -/
def scan (text : Text) : List Token :=
  (Text.words text).zipIdx.map fun (word, i) => ofLiteral word i

end Token

end Lambda94
