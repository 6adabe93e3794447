import Lambda94.Expr.Basic

/-!
# Readable expressions

Expressions with `λ`, infix operators and full parentheses; application is juxtaposition.
-/

namespace Lambda94

/-- The readable name of the variable with a given id. -/
def variableName (id : Int) : Text := "v" ++ Decimal.ofInt id

/-- An expression as a reader sees it. -/
def Expr.pretty : Expr → Text
  | .lit value => value.pretty
  | .unary op operand => "(" ++ op.symbol ++ " " ++ operand.pretty ++ ")"
  | .binary (.strict op) left right =>
    "(" ++ left.pretty ++ " " ++ op.symbol ++ " " ++ right.pretty ++ ")"
  | .binary .apply fn arg => "(" ++ fn.pretty ++ " " ++ arg.pretty ++ ")"
  | .cond c t e =>
    "(if " ++ c.pretty ++ " then " ++ t.pretty ++ " else " ++ e.pretty ++ ")"
  | .lam binder body => "λ" ++ variableName binder ++ "." ++ body.pretty
  | .var id => variableName id

end Lambda94
