import Lambda94.Expr.Basic
import Lambda94.Scope
import Lambda94.Wire.Cipher
import Lambda94.Wire.Integer
import Lambda94.Wire.ParseTree

/-!
# Renaming

A parse tree becomes an expression by decoding its tokens and giving every function a binder of its
own.  Programs reuse small numerals freely; the evaluator keeps all bindings side by side, so two
functions that share a numeral would overwrite each other's arguments.  Binders are handed out in
the order of the text, counting down from a seed.
-/

namespace Lambda94

/-! ### Binder ids -/

/-- A supply of binder ids, shared by everything that is renamed together. -/
structure IdSupply where
  /-- The first id that is handed out. -/
  seed : Int
  /-- The number of ids handed out so far. -/
  used : Nat
deriving DecidableEq, Repr

namespace IdSupply

/-- The supply that starts at `seed`. -/
def ofSeed (seed : Int) : IdSupply := ⟨seed, 0⟩

/-- The supply of a program, whose binders are negative. -/
def initial : IdSupply := ofSeed (-1)

/-- The id that is handed out next. -/
def current (ids : IdSupply) : Int := ids.seed - ids.used

/-- The supply after one more id. -/
def advance (ids : IdSupply) : IdSupply := { ids with used := ids.used + 1 }

end IdSupply

/-! ### Naming binders -/

/-- Why a text or a parse tree is not a program. -/
inductive ReadError
  | parse (error : ParseError)
  | codec (error : CodecError)
deriving DecidableEq, Repr

/-- Renaming hands out ids, and keeps the ids it has handed out when it fails. -/
abbrev RenameM := EStateM ReadError IdSupply

/-- Takes the next id from the supply. -/
def freshId : RenameM Int := do
  let ids ← get
  set ids.advance
  return ids.current

/-- Fails because of a token or a node. -/
def refuse {α : Type} (error : ParseError) : RenameM α := throw (.parse error)

/-- Decodes an integer body. -/
def readNumeral (body : Text) : RenameM Int :=
  match Wire.decodeInteger body with
  | .ok n => return n
  | .error error => throw (.codec error)

/-- The expression of a parse tree.  The children of a node are renamed from left to right, all in
the scope of the node; only the body of a function sees the binder of that function. -/
def ParseTree.rename (scope : Scope) : ParseTree → RenameM Expr
  | .node .boolean token _ => return .lit (.bool (token.indicator == "T"))
  | .node .integer token _ => do return .lit (.int (← readNumeral token.body))
  | .node .string token _ => return .lit (.str (Wire.decodeString token.body))
  | .node .unary token children =>
    match UnaryOp.ofCode? token.body with
    | none => refuse (.unknownOperator token)
    | some op =>
      match children with
      | [] => refuse (.missingChild .unary token 0)
      | operand :: _ => do return .unary op (← operand.rename scope)
  | .node .binary token children =>
    match BinaryOp.ofCode? token.body with
    | none => refuse (.unknownOperator token)
    | some op =>
      match children with
      | [] => refuse (.missingChild .binary token 0)
      | left :: rest => do
        let left ← left.rename scope
        match rest with
        | [] => refuse (.missingChild .binary token 1)
        | right :: _ => return .binary op left (← right.rename scope)
  | .node .conditional token children =>
    match children with
    | [] => refuse (.missingChild .conditional token 0)
    | c :: rest => do
      let c ← c.rename scope
      match rest with
      | [] => refuse (.missingChild .conditional token 1)
      | t :: rest => do
        let t ← t.rename scope
        match rest with
        | [] => refuse (.missingChild .conditional token 2)
        | e :: _ => return .cond c t (← e.rename scope)
  | .node .lambda token children => do
    let numeral ← readNumeral token.body
    let binder ← freshId
    match children with
    | [] => refuse (.missingChild .lambda token 0)
    | body :: _ => return .lam binder (← body.rename (scope.bind numeral binder))
  | .node .variable token _ => do
    let numeral ← readNumeral token.body
    return .var ((scope.lookup? numeral).getD numeral)
  | .node (.unrecognized name) token _ => refuse (.unrecognizedRule name token)

end Lambda94
