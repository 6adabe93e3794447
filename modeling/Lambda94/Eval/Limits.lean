import Lambda94.Number.Text

/-!
# Limits of an evaluation

A run has a budget of steps, shared by all its loops, and a bound on the loops that are in progress
inside one another.  The limits are no part of the meaning of programs.
-/

namespace Lambda94

/-- The limits of an evaluation. -/
structure Limits where
  /-- The steps that one outermost loop may take, those of the loops inside it included. -/
  iterations : Nat := 1000000
  /-- The loops that may be in progress at a time. -/
  depth : Nat := 1000
  /-- The loops for which there is stack. -/
  frames : Nat := 10000
deriving DecidableEq, Repr, Inhabited

/-- A limit that is not a positive integer. -/
structure LimitError where
  /-- The name of the limit. -/
  name : String
  value : Number
deriving DecidableEq, Repr

/-- The message of a limit error. -/
def LimitError.message (error : LimitError) : Text :=
  error.name ++ " must be a positive integer, got " ++ error.value.text

namespace Limits

/-- A limit given as a number, which must be a positive integer that is exact. -/
def check (name : String) (value : Number) : Except LimitError Nat :=
  match value.toSafeInt? with
  | some n => if n < 1 then .error ⟨name, value⟩ else .ok n.toNat
  | none => .error ⟨name, value⟩

/-- A limit that is given or has a default. -/
def checkOption (name : String) (default : Nat) : Option Number → Except LimitError Nat
  | none => .ok default
  | some value => check name value

/-- The limits with the given budget and nesting; where one is not given it has its default. -/
def ofNumbers (iterations depth : Option Number) : Except LimitError Limits := do
  let defaults : Limits := {}
  let iterations ← checkOption "maxIterations" defaults.iterations iterations
  let depth ← checkOption "maxDepth" defaults.depth depth
  return { iterations, depth }

end Limits

end Lambda94
