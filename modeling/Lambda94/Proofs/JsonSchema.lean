import Lambda94.Proofs.TaggedIntegers

/-!
# The schema of expressions

`Json.Denotes` says what a document has to be to denote an expression.  `FirstFlaw` says where a
document that denotes none goes wrong first: at a place itself, or else inside the first of its
parts that is not as it should be.  The parts of a node and the order in which they are looked at
are a table, `Shape.fields`.
-/

namespace Lambda94

namespace Json

/-- A member of an object that is not a tagged integer. -/
def field? (json : Json) (name : String) : Option Json := json.members?.bind (member? · name)

/-- The document denotes the value; an integer is wrapped to 64 bits. -/
inductive DenotesValue (json : Json) : Value → Prop
  | string {s : Text} (kind : json.field? "kind" = some (.string "string"))
    (payload : json.field? "value" = some (.string s)) : DenotesValue json (.str s)
  | boolean {b : Bool} (kind : json.field? "kind" = some (.string "boolean"))
    (payload : json.field? "value" = some (.bool b)) : DenotesValue json (.bool b)
  | integer {part : Json} {n : Int} (kind : json.field? "kind" = some (.string "integer"))
    (payload : json.field? "value" = some part) (tagged : part.toInt? = some n) :
    DenotesValue json (.ofInt n)

/-- The document denotes the expression.  Nothing is said of members that are not named here. -/
inductive Denotes : Json → Expr → Prop
  | lit {json part : Json} {value : Value} (kind : json.field? "kind" = some (.string "literal"))
    (atValue : json.field? "value" = some part) (denotes : part.DenotesValue value) :
    Denotes json (.lit value)
  | unary {json part : Json} {op : UnaryOp} {operand : Expr}
    (kind : json.field? "kind" = some (.string "unary"))
    (code : json.field? "op" = some (.string (Text.ofChar op.code)))
    (atOperand : json.field? "operand" = some part) (denotes : Denotes part operand) :
    Denotes json (.unary op operand)
  | binary {json part part' : Json} {op : BinaryOp} {left right : Expr}
    (kind : json.field? "kind" = some (.string "binary"))
    (code : json.field? "op" = some (.string (Text.ofChar op.code)))
    (atLeft : json.field? "left" = some part) (atRight : json.field? "right" = some part')
    (denotes : Denotes part left) (denotes' : Denotes part' right) :
    Denotes json (.binary op left right)
  | cond {json part part' part'' : Json} {c t e : Expr}
    (kind : json.field? "kind" = some (.string "if"))
    (atCondition : json.field? "condition" = some part)
    (atThen : json.field? "thenBranch" = some part')
    (atElse : json.field? "elseBranch" = some part'') (denotes : Denotes part c)
    (denotes' : Denotes part' t) (denotes'' : Denotes part'' e) : Denotes json (.cond c t e)
  | lam {json part part' : Json} {binder : Int} {body : Expr}
    (kind : json.field? "kind" = some (.string "lambda"))
    (atBinder : json.field? "binderId" = some part) (atBody : json.field? "body" = some part')
    (tagged : part.toInt? = some binder) (denotes : Denotes part' body) :
    Denotes json (.lam binder body)
  | var {json part : Json} {id : Int} (kind : json.field? "kind" = some (.string "variable"))
    (atId : json.field? "id" = some part) (tagged : part.toInt? = some id) :
    Denotes json (.var id)

/-- A part of a document as messages show it; a part that is missing is `undefined`. -/
def shown : Option Json → Text
  | none => "undefined"
  | some json => json.text 0

end Json

/-! ### Shapes and flaws -/

/-- What is to stand at a place in a document. -/
inductive Shape
  | expr
  | value
  | integer
  | string
  | boolean
  | unaryOp
  | binaryOp

/-- What is wrong at a place in a document. -/
inductive Flaw
  | plain (problem : SchemaProblem)
  /-- This, or nothing, is no kind of expression. -/
  | exprKind (kind : Option Json)
  /-- This, or nothing, is no kind of value. -/
  | valueKind (kind : Option Json)

namespace Flaw

/-- The part of the document that the report of a flaw quotes. -/
def quoted : Flaw → Option Json
  | .plain _ => none
  | .exprKind kind | .valueKind kind => kind

/-- The problem that is reported. -/
def named : Flaw → SchemaProblem
  | .plain problem => problem
  | .exprKind kind => .unknownExprKind (Json.shown kind)
  | .valueKind kind => .unknownValueKind (Json.shown kind)

/-- What is reported of a flaw at a path.  A part with a tagged integer in it cannot be quoted. -/
def report (path : List String) (flaw : Flaw) : SchemaError :=
  if flaw.quoted.any Json.hasInteger then .unquotable else .invalid path flaw.named

end Flaw

namespace Shape

/-- What a part of a shape denotes. -/
abbrev Denoted : Shape → Type
  | .expr => Expr
  | .value => Value
  | .integer => Int
  | .string => Text
  | .boolean => Bool
  | .unaryOp => UnaryOp
  | .binaryOp => BinaryOp

/-- The part of a document is of the shape, with all that is in it, and denotes this. -/
def Means : (shape : Shape) → Json → shape.Denoted → Prop
  | .expr, json, denoted => json.Denotes denoted
  | .value, json, denoted => json.DenotesValue denoted
  | .integer, json, n => json.toInt? = some n
  | .string, json, s => json = .string s
  | .boolean, json, b => json = .bool b
  | .unaryOp, json, op => json = .string (Text.ofChar op.code)
  | .binaryOp, json, op => json = .string (Text.ofChar op.code)

/-- What stands at a place is of the shape. -/
def Holds (shape : Shape) (place : Option Json) : Prop :=
  ∃ json denoted, place = some json ∧ shape.Means json denoted

/-- The kinds of nodes, each with the members of a node of that kind in the order in which they are
looked at. -/
def nodes : Shape → List (Text × List (String × Shape))
  | .expr =>
    [("literal", [("value", .value)]),
      ("unary", [("op", .unaryOp), ("operand", .expr)]),
      ("binary", [("op", .binaryOp), ("left", .expr), ("right", .expr)]),
      ("if", [("condition", .expr), ("thenBranch", .expr), ("elseBranch", .expr)]),
      ("lambda", [("binderId", .integer), ("body", .expr)]),
      ("variable", [("id", .integer)])]
  | .value =>
    [("string", [("value", .string)]),
      ("boolean", [("value", .boolean)]),
      ("integer", [("value", .integer)])]
  | _ => []

/-- The members of a node of a kind. -/
def fields (shape : Shape) (kind : Text) : Option (List (String × Shape)) := shape.nodes.lookup kind

/-- A node has a kind and parts. -/
def isNode : Shape → Bool
  | .expr | .value => true
  | _ => false

/-- What is wrong at a place where something else stands, or nothing. -/
def otherwise : Shape → SchemaProblem
  | .expr => .notExpression
  | .value => .notValue
  | .integer => .notInteger
  | .string => .wrongPayload .string
  | .boolean => .wrongPayload .boolean
  | .unaryOp => .unknownUnary
  | .binaryOp => .unknownBinary

end Shape

/-- The flaw is at the place itself. -/
inductive FlawAt : Shape → Option Json → Flaw → Prop
  | leaf {shape : Shape} {place : Option Json} (isLeaf : shape.isNode = false)
    (other : ¬shape.Holds place) : FlawAt shape place (.plain shape.otherwise)
  | noObject {shape : Shape} {place : Option Json} (isNode : shape.isNode = true)
    (other : place.bind Json.members? = none) : FlawAt shape place (.plain shape.otherwise)
  | exprKind {json : Json} (object : json.members? ≠ none)
    (unknown : ∀ kind, json.field? "kind" = some (.string kind) → Shape.expr.fields kind = none) :
    FlawAt .expr (some json) (.exprKind (json.field? "kind"))
  | valueKind {json : Json} (object : json.members? ≠ none)
    (unknown : ∀ kind, json.field? "kind" = some (.string kind) → Shape.value.fields kind = none) :
    FlawAt .value (some json) (.valueKind (json.field? "kind"))

/-- The first flaw of what stands at a place with a path is found at a path: at the place itself, or
inside a part of a node before which the parts are as they should be. -/
inductive FirstFlaw : Shape → Option Json → List String → List String → Flaw → Prop
  | here {shape : Shape} {place : Option Json} {path : List String} {flaw : Flaw}
    (flawAt : FlawAt shape place flaw) : FirstFlaw shape place path path flaw
  | part {shape inner : Shape} {json : Json} {path found : List String} {kind : Text}
    {name : String} {before after : List (String × Shape)} {flaw : Flaw}
    (known : json.field? "kind" = some (.string kind))
    (fields : shape.fields kind = some (before ++ (name, inner) :: after))
    (fine : ∀ field ∈ before, field.2.Holds (json.field? field.1))
    (inside : FirstFlaw inner (json.field? name) (path ++ [name]) found flaw) :
    FirstFlaw shape (some json) path found flaw

/-! ### Only one flaw is the first -/

theorem Json.members?_ne_none_of_field? {json part : Json} {name : String}
    (h : json.field? name = some part) : json.members? ≠ none := by
  intro hnone
  rw [Json.field?, hnone] at h
  cases h

namespace Shape

theorem isNode_of_fields {shape : Shape} {kind : Text} {fields : List (String × Shape)}
    (h : shape.fields kind = some fields) : shape.isNode = true := by
  cases shape with
  | expr | value => rfl
  | _ => cases h

/-- A node of a shape is of a known kind, and its parts are of their shapes. -/
theorem Holds.fields {shape : Shape} {json : Json} (isNode : shape.isNode = true)
    (h : shape.Holds (some json)) :
    ∃ kind fields, json.field? "kind" = some (.string kind) ∧
      shape.fields kind = some fields ∧ ∀ field ∈ fields, field.2.Holds (json.field? field.1) := by
  obtain ⟨json, denoted, ⟨⟩, means⟩ := h
  cases shape with
  | expr =>
    cases means with
    | lit kind atValue denotes =>
      refine ⟨_, _, kind, rfl, ?_⟩
      simpa using ⟨_, _, atValue, denotes⟩
    | unary kind code atOperand denotes =>
      refine ⟨_, _, kind, rfl, ?_⟩
      simpa using ⟨⟨_, _, code, rfl⟩, _, _, atOperand, denotes⟩
    | binary kind code atLeft atRight denotes denotes' =>
      refine ⟨_, _, kind, rfl, ?_⟩
      simpa using ⟨⟨_, _, code, rfl⟩, ⟨_, _, atLeft, denotes⟩, _, _, atRight, denotes'⟩
    | cond kind atCondition atThen atElse denotes denotes' denotes'' =>
      refine ⟨_, _, kind, rfl, ?_⟩
      simpa using ⟨⟨_, _, atCondition, denotes⟩, ⟨_, _, atThen, denotes'⟩, _, _, atElse, denotes''⟩
    | lam kind atBinder atBody tagged denotes =>
      refine ⟨_, _, kind, rfl, ?_⟩
      simpa using ⟨⟨_, _, atBinder, tagged⟩, _, _, atBody, denotes⟩
    | var kind atId tagged =>
      refine ⟨_, _, kind, rfl, ?_⟩
      simpa using ⟨_, _, atId, tagged⟩
  | value =>
    cases means with
    | string kind payload =>
      refine ⟨_, _, kind, rfl, ?_⟩
      simpa using ⟨_, _, payload, rfl⟩
    | boolean kind payload =>
      refine ⟨_, _, kind, rfl, ?_⟩
      simpa using ⟨_, _, payload, rfl⟩
    | integer kind payload tagged =>
      refine ⟨_, _, kind, rfl, ?_⟩
      simpa using ⟨_, _, payload, tagged⟩
  | _ => cases isNode

end Shape

namespace FlawAt

/-- A node with a flaw of its own is of no known kind. -/
theorem fields_eq_none {shape : Shape} {json : Json} {flaw : Flaw} {kind : Text}
    (h : FlawAt shape (some json) flaw) (known : json.field? "kind" = some (.string kind)) :
    shape.fields kind = none := by
  cases h with
  | leaf isLeaf other =>
    refine Option.eq_none_iff_forall_ne_some.2 fun fields hfields => ?_
    rw [Shape.isNode_of_fields hfields] at isLeaf
    cases isLeaf
  | noObject isNode other => exact absurd other (Json.members?_ne_none_of_field? known)
  | exprKind object unknown => exact unknown kind known
  | valueKind object unknown => exact unknown kind known

theorem not_holds {shape : Shape} {place : Option Json} {flaw : Flaw}
    (h : FlawAt shape place flaw) : ¬shape.Holds place := by
  intro holds
  have ⟨json, _, there, _⟩ := holds
  subst there
  by_cases isNode : shape.isNode = true
  · obtain ⟨kind, fields, known, hfields, -⟩ := holds.fields isNode
    rw [h.fields_eq_none known] at hfields
    cases hfields
  · cases h with
    | leaf _ other => exact other holds
    | noObject isNode' => exact isNode isNode'
    | exprKind | valueKind => exact isNode rfl

theorem unique {shape : Shape} {place : Option Json} {flaw flaw' : Flaw}
    (h : FlawAt shape place flaw) (h' : FlawAt shape place flaw') : flaw = flaw' := by
  cases h with
  | leaf isLeaf => cases h' with
    | leaf | noObject => rfl
    | exprKind | valueKind => cases isLeaf
  | noObject _ other => cases h' with
    | leaf | noObject => rfl
    | exprKind object | valueKind object => exact absurd other object
  | exprKind object => cases h' with
    | exprKind => rfl
    | leaf isLeaf => cases isLeaf
    | noObject _ other => exact absurd other object
  | valueKind object => cases h' with
    | valueKind => rfl
    | leaf isLeaf => cases isLeaf
    | noObject _ other => exact absurd other object

end FlawAt

namespace FirstFlaw

variable {shape : Shape} {place : Option Json} {path found found' : List String} {flaw flaw' : Flaw}

theorem not_holds (h : FirstFlaw shape place path found flaw) : ¬shape.Holds place := by
  induction h with
  | here flawAt => exact flawAt.not_holds
  | @part shape inner json _ _ kind name before after _ known fields fine inside ih =>
    intro holds
    obtain ⟨kind', fields', known', hfields', all⟩ := holds.fields (Shape.isNode_of_fields fields)
    cases known.symm.trans known'
    cases fields.symm.trans hfields'
    exact ih (all (name, inner) (by simp))

/-- There is at most one first flaw. -/
theorem unique (h : FirstFlaw shape place path found flaw)
    (h' : FirstFlaw shape place path found' flaw') : found = found' ∧ flaw = flaw' := by
  induction h with
  | here flawAt => cases h' with
    | here flawAt' => exact ⟨rfl, flawAt.unique flawAt'⟩
    | part known fields => cases (flawAt.fields_eq_none known).symm.trans fields
  | part known fields fine inside ih => cases h' with
    | here flawAt' => cases (flawAt'.fields_eq_none known).symm.trans fields
    | part known' fields' fine' inside' =>
      cases known.symm.trans known'
      have split := Option.some.inj (fields.symm.trans fields')
      cases first_unique split fine inside.not_holds fine' inside'.not_holds
      exact ih inside'

end FirstFlaw

end Lambda94
