import Lambda94.Wire.Grammar

/-!
# Parse trees

The prefix tree of a token stream.  A node records its rule and its token and nothing else, so
that trees from other sources can be renamed too; such a tree may have nodes of unknown rules and
nodes with any number of children.
-/

namespace Lambda94

/-- A node of a parse tree, with the trees below it. -/
inductive ParseTree
  | node (rule : Rule) (token : Token) (children : List ParseTree)
deriving Repr, Inhabited

namespace ParseTree

/-- The rule of a node. -/
def rule : ParseTree → Rule
  | .node rule _ _ => rule

/-- The token of a node. -/
def token : ParseTree → Token
  | .node _ token _ => token

/-- The children of a node. -/
def children : ParseTree → List ParseTree
  | .node _ _ children => children

mutual

/-- The tokens of a tree, in the order of the text. -/
def tokens : ParseTree → List Token
  | .node _ token children => token :: tokensAll children

/-- The tokens of a list of trees, in the order of the text. -/
def tokensAll : List ParseTree → List Token
  | [] => []
  | child :: rest => child.tokens ++ tokensAll rest

end

end ParseTree

/-- The shape of a token, if its indicator is known and its body fits. -/
def Token.shape (token : Token) : Except ParseError TokenShape :=
  match TokenShape.ofIndicator? token.indicator with
  | none => .error (.unknownIndicator token)
  | some shape =>
    if shape.body.fits token.body.length then .ok shape
    else .error (.malformedToken shape.rule token)

namespace ParseTree

/-- Reads `count` expressions one after the other. -/
def readMany (read : List Token → Except ParseError (ParseTree × List Token)) :
    Nat → List Token → Except ParseError (List ParseTree × List Token)
  | 0, tokens => .ok ([], tokens)
  | count + 1, tokens => do
    let (child, rest) ← read tokens
    let (children, rest) ← readMany read count rest
    .ok (child :: children, rest)

/-- Reads an expression of at most `bound` nested tokens and returns the tokens after it.  No
expression nests deeper than it has tokens, so with a bound of at least the number of tokens the
bound is reached at the end of the tokens only. -/
def readWithin : Nat → List Token → Except ParseError (ParseTree × List Token)
  | 0, _ | _ + 1, [] => .error .unexpectedEnd
  | bound + 1, token :: rest => do
    let shape ← token.shape
    let (children, rest) ← readMany (readWithin bound) shape.arity rest
    .ok (.node shape.rule token children, rest)

/-- Reads the expression that starts at the token of index `start` and returns the index of the
first token after it. -/
def read (tokens : List Token) (start : Nat) : Except ParseError (ParseTree × Nat) := do
  let available := tokens.drop start
  let (tree, rest) ← readWithin available.length available
  .ok (tree, start + (available.length - rest.length))

/-- The parse tree of a token stream, which must hold exactly one expression. -/
def ofTokens (tokens : List Token) : Except ParseError ParseTree := do
  if tokens.isEmpty then .error .emptyInput
  let (tree, next) ← read tokens 0
  match tokens[next]? with
  | some extra => .error (.trailingTokens extra)
  | none => .ok tree

/-- The parse tree of a text. -/
def ofText (text : Text) : Except ParseError ParseTree := ofTokens (Token.scan text)

end ParseTree

end Lambda94
