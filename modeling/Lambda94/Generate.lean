import Lambda94.Expr.Basic
import Lambda94.Wire.Alphabet

/-!
# Random programs

Random expressions as they would be written by hand: binders are small numerals that are used over
and over, and every variable refers to a binder around it.  All choices come from a source of
integers, which is asked for one between two bounds at a time.
-/

namespace Lambda94

/-- A source of integers: its answer to the question of a given number for an integer between two
bounds, both included. -/
abbrev Source := Nat → Int → Int → Int

namespace Source

/-- The source that goes through `draws` over and over and takes each draw as it is. -/
def raw (draws : List Int) : Source := fun i _ _ =>
  if draws.isEmpty then 0 else draws.getD (i % draws.length) 0

/-- The source that goes through `draws` over and over and brings each draw between the bounds. -/
def cyclic (draws : List Int) : Source := fun i low high =>
  low + raw draws i low high % (high - low + 1)

end Source

/-- Nothing can be picked from an empty list, or by an index outside the list. -/
inductive PickError
  | nothingToPick
deriving DecidableEq, Repr

/-- The message of a pick error. -/
def PickError.message : PickError → String
  | .nothingToPick => "cannot pick from an empty list"

/-- Generation asks its source and counts the questions. -/
abbrev GenM := ReaderT Source (EStateM PickError Nat)

namespace GenM

/-- An integer between two bounds. -/
def between (low high : Int) : GenM Int := do
  let asked ← get
  set (asked + 1)
  return (← read) asked low high

/-- The entry of a list at an integer index. -/
def nth? {α : Type} (items : List α) (index : Int) : Option α :=
  if index < 0 then none else items[index.toNat]?

/-- One of the entries of a list. -/
def pick {α : Type} (items : List α) : GenM α := do
  match nth? items (← between 0 (items.length - 1)) with
  | some item => return item
  | none => throw .nothingToPick

/-- The given number of characters of the string alphabet; an index outside it gives none. -/
def characters : Nat → GenM Text
  | 0 => return []
  | count + 1 => do
    let index ← between 0 (Wire.alphabet.length - 1)
    let rest ← characters count
    return (nth? Wire.alphabet index).toList ++ rest

/-- A string of at most `maxLength` characters. -/
def string (maxLength : Int) : GenM Text := do
  let length ← between 0 maxLength
  characters length.toNat

/-- A boolean, an integer up to a million or a string of at most twelve characters. -/
def value : GenM Value := do
  let die ← between 1 3
  if die = 1 then return .bool ((← between 0 1) == 1)
  else if die = 2 then return .ofInt (← between 0 1000000)
  else return .str (← string 12)

/-- A variable of the scope or a literal. -/
def leaf (scope : List Int) : GenM Expr := do
  if scope.isEmpty then return .lit (← value)
  else if (← between 0 1) = 1 then return .var (← pick scope)
  else return .lit (← value)

/-- An expression of at most the given depth, with the variables of the scope. -/
def expr : Nat → List Int → GenM Expr
  | 0, scope => leaf scope
  | depth + 1, scope => do
    let die ← between 1 5
    if die = 1 then
      let op ← pick UnaryOp.all
      return .unary op (← expr depth scope)
    else if die = 2 then
      let op ← pick BinaryOp.all
      let left ← expr depth scope
      return .binary op left (← expr depth scope)
    else if die = 3 then
      let c ← expr depth scope
      let t ← expr depth scope
      return .cond c t (← expr depth scope)
    else if die = 4 then
      let binder ← between 0 3
      return .lam binder (← expr depth (scope ++ [binder]))
    else leaf scope

/-- Generates from a source, and returns the number of questions it was asked. -/
def generate {α : Type} (gen : GenM α) (source : Source) : Except PickError (α × Nat) :=
  match (gen source).run 0 with
  | .ok a asked => .ok (a, asked)
  | .error error _ => .error error

end GenM

end Lambda94
