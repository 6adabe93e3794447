import Lambda94.Operator
import Lambda94.Value

/-!
# Expressions

The syntax trees of the language: literals, operators, conditionals, functions of one argument and
variables.  A function and the variables that refer to it carry the same integer.  After renaming
the functions of a program carry distinct negative integers, and a variable that no function binds
keeps the numeral it was written with.
-/

namespace Lambda94

/-- An expression. -/
inductive Expr
  | lit (value : Value)
  | unary (op : UnaryOp) (operand : Expr)
  | binary (op : BinaryOp) (left right : Expr)
  | cond (condition thenBranch elseBranch : Expr)
  | lam (binder : Int) (body : Expr)
  | var (id : Int)
deriving DecidableEq, Repr, Inhabited

namespace Expr

/-- The application of `fn` to `arg`. -/
abbrev app (fn arg : Expr) : Expr := .binary .apply fn arg

/-- Applies `fn` to each argument in turn. -/
def applyAll (fn : Expr) (args : List Expr) : Expr := args.foldl app fn

/-- The outermost shape is visible: a literal, a function or a variable. -/
def isHeadNormal : Expr → Bool
  | .lit _ | .lam .. | .var _ => true
  | .unary .. | .binary .. | .cond .. => false

end Expr

end Lambda94
