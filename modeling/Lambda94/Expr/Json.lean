import Lambda94.Expr.Basic
import Lambda94.Json.Reader
import Lambda94.Json.Writer

/-!
# Expressions as JSON

Every expression is an object whose member `kind` names its form; binders, variables and integer
literals are tagged integers.  Reading checks the tagged integers of the whole document first, from
the inside out, and then the form of the expression from the outside in; members that the form does
not have are ignored.
-/

namespace Lambda94

/-! ### Forms -/

/-- The forms of an expression. -/
inductive Expr.Form
  | literal
  | unary
  | binary
  | conditional
  | lambda
  | variable
deriving DecidableEq, Repr

namespace Expr.Form

/-- The name of a form. -/
def name : Form → String
  | .literal => "literal"
  | .unary => "unary"
  | .binary => "binary"
  | .conditional => "if"
  | .lambda => "lambda"
  | .variable => "variable"

/-- The forms of expressions. -/
def all : List Form := [.literal, .unary, .binary, .conditional, .lambda, .variable]

/-- The form with a given name. -/
def ofName? (name : Text) : Option Form := all.find? fun form => name == form.name

theorem ofName?_name (form : Form) : ofName? form.name = some form := by
  cases form <;> rfl

/-- A name is read as a form exactly if it is the name of that form. -/
theorem ofName?_eq_some_iff {s : Text} {form : Form} : ofName? s = some form ↔ s = form.name := by
  refine ⟨fun h => ?_, fun h => h ▸ ofName?_name form⟩
  simpa using List.find?_some h

end Expr.Form

/-! ### Writing -/

/-- The JSON form of a value. -/
def Value.toJson (value : Value) : Json :=
  .object [("kind", .string value.kind.name), ("value", payload value)]
where
  /-- The JSON form of the contents of a value. -/
  payload : Value → Json
    | .str s => .string s
    | .bool b => .bool b
    | .int n => .ofInt n

/-- The JSON form of an expression. -/
def Expr.toJson : Expr → Json
  | .lit value => .object [("kind", .string "literal"), ("value", value.toJson)]
  | .unary op operand =>
    .object [("kind", .string "unary"), ("op", .string (Text.ofChar op.code)),
      ("operand", operand.toJson)]
  | .binary op left right =>
    .object [("kind", .string "binary"), ("op", .string (Text.ofChar op.code)),
      ("left", left.toJson), ("right", right.toJson)]
  | .cond c t e =>
    .object [("kind", .string "if"), ("condition", c.toJson), ("thenBranch", t.toJson),
      ("elseBranch", e.toJson)]
  | .lam binder body =>
    .object [("kind", .string "lambda"), ("binderId", .ofInt binder), ("body", body.toJson)]
  | .var id => .object [("kind", .string "variable"), ("id", .ofInt id)]

/-- The JSON text of an expression, indented by `width` spaces for each level. -/
def Expr.toJsonText (width : Nat) (expr : Expr) : Text := expr.toJson.text width

/-! ### Errors -/

/-- What is wrong with a part of a document. -/
inductive SchemaProblem
  | notExpression
  | notValue
  | notInteger
  | wrongPayload (kind : Kind)
  | unknownUnary
  | unknownBinary
  /-- The kind is no kind of expression; it is quoted as JSON. -/
  | unknownExprKind (quoted : Text)
  /-- The kind is no kind of value; it is quoted as JSON. -/
  | unknownValueKind (quoted : Text)
deriving DecidableEq, Repr

/-- The words for a problem. -/
def SchemaProblem.text : SchemaProblem → Text
  | .notExpression => "expected an expression object"
  | .notValue => "expected a value object"
  | .notInteger => "expected a tagged bigint"
  | .wrongPayload kind => "expected a " ++ kind.name ++ " payload"
  | .unknownUnary => "unknown unary operator"
  | .unknownBinary => "unknown binary operator"
  | .unknownExprKind quoted => "unknown expression kind " ++ quoted
  | .unknownValueKind quoted => "unknown value kind " ++ quoted

/-- Why a text is not the JSON form of an expression. -/
inductive SchemaError
  /-- The text is not JSON. -/
  | malformed
  /-- The payload of a tagged integer, quoted as JSON, is not an integer in decimal. -/
  | badInteger (quoted : Text)
  /-- The part at a path, given by the names of the members that lead to it, has a problem. -/
  | invalid (path : List String) (problem : SchemaProblem)
  /-- The offending part holds a tagged integer, which cannot be quoted as JSON. -/
  | unquotable
deriving DecidableEq, Repr

/-- A path from the root of a document. -/
def SchemaError.pathText (path : List String) : Text :=
  path.foldl (fun text (name : String) => text ++ "." ++ name) ("$" : Text)

/-- The message of a schema error. -/
def SchemaError.message : SchemaError → Text
  | .malformed => "Invalid JSON in expression: "
  | .badInteger quoted => "Invalid bigint encoding: " ++ quoted
  | .invalid path problem =>
    "Invalid expression JSON at " ++ pathText path ++ ": " ++ problem.text
  | .unquotable => "cannot quote a tagged integer"

namespace Json

/-- A part of a document as messages quote it; a part that is missing is `undefined`. -/
def quotePart : Option Json → Except SchemaError Text
  | none => .ok "undefined"
  | some json => if json.hasInteger then .error .unquotable else .ok (json.text 0)

/-! ### Checking tagged integers -/

/-- Checks the payload of a tagged integer. -/
def checkPayload (payload : Json) : Except SchemaError Unit :=
  match payload.payload? with
  | some _ => .ok ()
  | none => do
    let quoted ← quotePart (some payload)
    .error (.badInteger quoted)

mutual

/-- Checks the tagged integers in a value, the inner ones first. -/
def checkIntegers : Json → Except SchemaError Unit
  | .array items => checkItems items
  | .object members => do
    checkMembers members
    match members.lookup integerTag with
    | none => .ok ()
    | some payload => checkPayload payload
  | _ => .ok ()

/-- Checks the tagged integers in the items of an array. -/
def checkItems : List Json → Except SchemaError Unit
  | [] => .ok ()
  | item :: items => do
    item.checkIntegers
    checkItems items

/-- Checks the tagged integers in the members of an object. -/
def checkMembers : List (Text × Json) → Except SchemaError Unit
  | [] => .ok ()
  | (_, value) :: members => do
    value.checkIntegers
    checkMembers members

end

end Json

/-! ### Reading -/

/-- Fails at a path. -/
def invalidAt {α : Type} (path : List String) (problem : SchemaProblem) : Except SchemaError α :=
  .error (.invalid path problem)

/-- The tagged integer at a path. -/
def integerAt (path : List String) (json : Option Json) : Except SchemaError Int :=
  match json.bind Json.toInt? with
  | some n => .ok n
  | none => invalidAt path .notInteger

/-- The value at a path. -/
def Value.ofJson (path : List String) (json : Option Json) : Except SchemaError Value :=
  match json.bind Json.members? with
  | none => invalidAt path .notValue
  | some members =>
    let kind := Json.member? members "kind"
    let payload := Json.member? members "value"
    let payloadPath := path ++ ["value"]
    match (Json.string? kind).bind Kind.ofName? with
    | some .string =>
      match payload with
      | some (.string s) => .ok (.str s)
      | _ => invalidAt payloadPath (.wrongPayload .string)
    | some .boolean =>
      match payload with
      | some (.bool b) => .ok (.bool b)
      | _ => invalidAt payloadPath (.wrongPayload .boolean)
    | some .integer => do
      let n ← integerAt payloadPath payload
      .ok (.ofInt n)
    | none => do
      let quoted ← Json.quotePart kind
      invalidAt path (.unknownValueKind quoted)

/-- Reads the part of an object with a given name by means of the readers of its members; a part
that is missing is no expression. -/
def Expr.partOfJson (parts : List (Text × (List String → Except SchemaError Expr)))
    (path : List String) (name : String) : Except SchemaError Expr :=
  match parts.lookup (name : Text) with
  | some read => read (path ++ [name])
  | none => invalidAt (path ++ [name]) .notExpression

mutual

/-- The expression at a path. -/
def Expr.ofJson : Json → List String → Except SchemaError Expr
  | .object members, path =>
    if (members.lookup Json.integerTag).isSome then invalidAt path .notExpression
    else
      let parts := Expr.partsOfJson members
      let kind := Json.member? members "kind"
      match (Json.string? kind).bind Expr.Form.ofName? with
      | some .literal => do
        let value ← Value.ofJson (path ++ ["value"]) (Json.member? members "value")
        .ok (.lit value)
      | some .unary =>
        match (Json.string? (Json.member? members "op")).bind UnaryOp.ofCode? with
        | none => invalidAt (path ++ ["op"]) .unknownUnary
        | some op => do
          let operand ← Expr.partOfJson parts path "operand"
          .ok (.unary op operand)
      | some .binary =>
        match (Json.string? (Json.member? members "op")).bind BinaryOp.ofCode? with
        | none => invalidAt (path ++ ["op"]) .unknownBinary
        | some op => do
          let left ← Expr.partOfJson parts path "left"
          let right ← Expr.partOfJson parts path "right"
          .ok (.binary op left right)
      | some .conditional => do
        let c ← Expr.partOfJson parts path "condition"
        let t ← Expr.partOfJson parts path "thenBranch"
        let e ← Expr.partOfJson parts path "elseBranch"
        .ok (.cond c t e)
      | some .lambda => do
        let binder ← integerAt (path ++ ["binderId"]) (Json.member? members "binderId")
        let body ← Expr.partOfJson parts path "body"
        .ok (.lam binder body)
      | some .variable => do
        let id ← integerAt (path ++ ["id"]) (Json.member? members "id")
        .ok (.var id)
      | none => do
        let quoted ← Json.quotePart kind
        invalidAt path (.unknownExprKind quoted)
  | _, path => invalidAt path .notExpression

/-- The readers of the members of an object, each waiting for its path. -/
def Expr.partsOfJson :
    List (Text × Json) → List (Text × (List String → Except SchemaError Expr))
  | [] => []
  | (name, value) :: members =>
    (name, fun path => Expr.ofJson value path) :: Expr.partsOfJson members

end

/-- The expression that a JSON text denotes. -/
def Expr.ofJsonText (text : Text) : Except SchemaError Expr :=
  match Json.ofText? text with
  | none => .error .malformed
  | some json => do
    json.checkIntegers
    Expr.ofJson json []

end Lambda94
