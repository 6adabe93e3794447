import Lambda94.Text.Decimal
import Lambda94.Wire.Token

/-!
# The grammar of tokens

```
expr = "T" | "F" | "I" body | "S" body | "v" body
     | "U" op expr | "B" op expr expr | "?" expr expr expr | "L" body expr
```

The indicator of a token fixes its rule, the number of expressions that follow it and the shape of
its body.
-/

namespace Lambda94

/-- A rule of the grammar.  Trees that were not read from tokens may name a rule that the grammar
does not have. -/
inductive Rule
  | boolean
  | integer
  | string
  | unary
  | binary
  | conditional
  | lambda
  | variable
  | unrecognized (name : Text)
deriving DecidableEq, Repr, Inhabited

/-- The name of a rule. -/
def Rule.name : Rule → Text
  | .boolean => "boolean"
  | .integer => "integer"
  | .string => "string"
  | .unary => "unary"
  | .binary => "binary"
  | .conditional => "if"
  | .lambda => "lambda"
  | .variable => "variable"
  | .unrecognized name => name

/-- The rules of the grammar. -/
def Rule.all : List Rule :=
  [.boolean, .integer, .string, .unary, .binary, .conditional, .lambda, .variable]

/-- The rule with a given name. -/
def Rule.ofName (name : Text) : Rule :=
  (Rule.all.find? fun rule => rule.name == name).getD (.unrecognized name)

/-- What the body of a token may be. -/
inductive BodyShape
  | empty
  | nonEmpty
  | operator
  | any
deriving DecidableEq, Repr

/-- A body of the given number of units has the shape. -/
def BodyShape.fits : BodyShape → Nat → Bool
  | .empty, n => n == 0
  | .nonEmpty, n => n != 0
  | .operator, n => n == 1
  | .any, _ => true

/-- What an indicator says about its token. -/
structure TokenShape where
  rule : Rule
  /-- The number of expressions that follow the token. -/
  arity : Nat
  body : BodyShape
deriving DecidableEq, Repr

/-- The shape of the tokens with a given indicator. -/
def TokenShape.ofIndicator? : Text → Option TokenShape
  | [0x54] => some ⟨.boolean, 0, .empty⟩ -- T
  | [0x46] => some ⟨.boolean, 0, .empty⟩ -- F
  | [0x49] => some ⟨.integer, 0, .nonEmpty⟩ -- I
  | [0x53] => some ⟨.string, 0, .any⟩ -- S
  | [0x55] => some ⟨.unary, 1, .operator⟩ -- U
  | [0x42] => some ⟨.binary, 2, .operator⟩ -- B
  | [0x3F] => some ⟨.conditional, 3, .empty⟩ -- ?
  | [0x4C] => some ⟨.lambda, 1, .nonEmpty⟩ -- L
  | [0x76] => some ⟨.variable, 0, .nonEmpty⟩ -- v
  | _ => none

/-! ### Errors -/

/-- Why tokens or parse trees do not form a program. -/
inductive ParseError
  | emptyInput
  | unexpectedEnd
  | unknownIndicator (token : Token)
  | malformedToken (rule : Rule) (token : Token)
  | missingChild (rule : Rule) (token : Token) (index : Nat)
  | trailingTokens (first : Token)
  | unknownOperator (token : Token)
  | unrecognizedRule (name : Text) (token : Token)
deriving DecidableEq, Repr

namespace ParseError

/-- The name of the kind of a parse error. -/
def kind : ParseError → String
  | .emptyInput => "EmptyInput"
  | .unexpectedEnd => "UnexpectedEndOfInput"
  | .unknownIndicator _ => "UnknownIndicator"
  | .malformedToken .. | .missingChild .. => "MalformedToken"
  | .trailingTokens _ => "TrailingTokens"
  | .unknownOperator _ => "UnknownOperator"
  | .unrecognizedRule .. => "UnrecognizedGrammarRule"

/-- The message of a parse error. -/
def message : ParseError → Text
  | .emptyInput => "empty program"
  | .unexpectedEnd => "unexpected end of input: expected an expression"
  | .unknownIndicator token =>
    "unknown indicator '" ++ token.indicator ++ "' in token '" ++ token.literal ++ "'"
  | .malformedToken rule token =>
    "malformed " ++ rule.name ++ " token '" ++ token.literal ++ "' at position " ++
      Decimal.ofInt token.offset
  | .missingChild rule token index =>
    rule.name ++ " node '" ++ token.literal ++ "' is missing child " ++ Decimal.ofInt index
  | .trailingTokens first =>
    "unexpected extra input starting at token '" ++ first.literal ++ "' (position " ++
      Decimal.ofInt first.offset ++ ")"
  | .unknownOperator token =>
    "unknown operator '" ++ token.body ++ "' in token '" ++ token.literal ++ "'"
  | .unrecognizedRule name token =>
    "unrecognized grammar rule '" ++ name ++ "' for token '" ++ token.literal ++ "'"

/-- The offending token as written, where there is one. -/
def token? : ParseError → Option Text
  | .emptyInput | .unexpectedEnd => none
  | .unknownIndicator token | .malformedToken _ token | .missingChild _ token _
  | .trailingTokens token | .unknownOperator token | .unrecognizedRule _ token =>
    some token.literal

end ParseError

end Lambda94
