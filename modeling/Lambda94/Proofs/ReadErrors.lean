import Lambda94.Proofs.IntegerBody
import Lambda94.Proofs.Reading
import Lambda94.Proofs.Stops

/-!
# Errors of reading

A text is grouped into a tree before anything in it is decoded, so an error of grouping hides all
others.  The tree of a text leaves nothing to object to but the bodies of its tokens, and the stops
of renaming are its tokens in the order of the text: `ParseTree.WellFormed.stops_eq`.  So reading
fails because of the first token whose body says nothing, and otherwise succeeds:
`ofText_errors_in_order`.
-/

namespace Lambda94

namespace Token

/-- The body of the token says what it is to say: a code of an operator with as many operands as the
indicator promises, or a numeral. -/
def Decodes (token : Token) : Prop :=
  match token.indicator with
  | [0x55] => ∃ op : UnaryOp, token.body = Text.ofChar op.code -- U
  | [0x42] => ∃ op : BinaryOp, token.body = Text.ofChar op.code -- B
  | [0x49] | [0x4C] | [0x76] => ∀ u ∈ token.body, Wire.Printable u -- I, L and v
  | _ => True

/-- What is objected to a token whose body does not say what it is to say. -/
inductive Objects (token : Token) : ReadError → Prop
  | unknownOperator (operator : token.indicator = "U" ∨ token.indicator = "B") :
    Objects token (.parse (.unknownOperator token))
  | invalidDigit (numeral : token.indicator = "I" ∨ token.indicator = "L" ∨ token.indicator = "v")
    {c : Text} (first : Wire.unprintable? token.body = some c) :
    Objects token (.codec (.invalidDigit c token.body))

/-- What comes of a token: it decodes and nothing is objected, or it does not and something is. -/
inductive Judged (token : Token) : Option ReadError → Prop
  | fine (decodes : token.Decodes) : Judged token none
  | flawed {error : ReadError} (fails : ¬ token.Decodes) (objects : token.Objects error) :
    Judged token (some error)

theorem judged_operator {token : Token} {known : Bool}
    (operator : token.indicator = "U" ∨ token.indicator = "B")
    (decodes : known = true ↔ token.Decodes) :
    token.Judged (if known then none else some (.parse (.unknownOperator token))) := by
  split_ifs with h
  · exact .fine (decodes.1 h)
  · exact .flawed (fun hdecodes => h (decodes.2 hdecodes)) (.unknownOperator operator)

theorem judged_numeral {token : Token}
    (numeral : token.indicator = "I" ∨ token.indicator = "L" ∨ token.indicator = "v")
    (decodes : token.Decodes ↔ ∀ u ∈ token.body, Wire.Printable u) :
    token.Judged (match Wire.decodeInteger token.body with
      | .ok _ => none
      | .error error => some (.codec error)) := by
  cases hnumeral : Wire.decodeInteger token.body with
  | ok n =>
    refine .fine (decodes.2 fun u mem => ?_)
    by_contra hu
    obtain ⟨error, herror⟩ := Wire.exists_decodeInteger_eq_error_iff.2 ⟨u, mem, hu⟩
    rw [hnumeral] at herror
    cases herror
  | error error =>
    obtain ⟨c, first, rfl⟩ := Wire.decodeInteger_eq_error_iff.1 hnumeral
    obtain ⟨u, mem, hu⟩ := Wire.exists_decodeInteger_eq_error_iff.1 ⟨_, hnumeral⟩
    exact .flawed (fun hdecodes => hu (decodes.1 hdecodes u mem)) (.invalidDigit numeral first)

/-- Renaming objects to a node of its grammar if and only if the token does not decode. -/
theorem judged_of_shape {token : Token} {rule : Rule} {arity : Nat} {body : BodyShape}
    (shape : token.shape = .ok ⟨rule, arity, body⟩) :
    token.Judged (Stop.node rule token).objection? := by
  have known := Token.ofIndicator?_of_shape shape
  unfold TokenShape.ofIndicator? at known
  split at known <;> cases known
  case h_1 h | h_2 h | h_4 h | h_7 h => exact .fine (by simp [Decodes, h])
  case h_3 h =>
    exact judged_numeral (.inl h) (by simp only [Decodes, h])
  case h_5 h =>
    refine judged_operator (.inl h) ?_
    simp only [Decodes, h, Option.isSome_iff_exists, UnaryOp.ofCode?_eq_some_iff]
  case h_6 h =>
    refine judged_operator (.inr h) ?_
    simp only [Decodes, h, Option.isSome_iff_exists, BinaryOp.ofCode?_eq_some_iff]
  case h_8 h =>
    exact judged_numeral (.inr (.inl h)) (by simp only [Decodes, h])
  case h_9 h =>
    exact judged_numeral (.inr (.inr h)) (by simp only [Decodes, h])

end Token

/-! ### Stops and tokens -/

/-- The token at a stop. -/
def Stop.token : Stop → Token
  | .node _ token | .gap _ token _ => token

namespace ParseTree

/-- If every child is there, the stops at the children are theirs. -/
theorem stopsBelow_length (rule : Rule) (token : Token) (index : Nat) (children : List ParseTree) :
    stopsBelow rule token index children.length children = children.flatMap stops := by
  induction children generalizing index with
  | nil => rfl
  | cons child rest ih => rw [List.length_cons, stopsBelow, ih, List.flatMap_cons]

theorem tokensAll_eq (children : List ParseTree) :
    tokensAll children = children.flatMap tokens := by
  induction children with
  | nil => rfl
  | cons child rest ih => rw [tokensAll, ih, List.flatMap_cons]

theorem WellFormed.stops_node {rule : Rule} {token : Token} {children : List ParseTree}
    (h : (ParseTree.node rule token children).WellFormed) :
    (ParseTree.node rule token children).stops = .node rule token :: children.flatMap stops := by
  rw [stops, ← h.length_children, stopsBelow_length]

/-- The stops of a well-formed tree are at its tokens. -/
theorem WellFormed.map_token_stops {tree : ParseTree} (wellFormed : tree.WellFormed) :
    tree.stops.map Stop.token = tree.tokens := by
  induction wellFormed with
  | @node rule token children body shape below ih =>
    rw [(WellFormed.node shape below).stops_node, tokens, tokensAll_eq, List.map_cons,
      List.map_flatMap]
    exact congrArg (token :: ·) (List.flatMap_congr ih)

/-- All that can be wrong with a well-formed tree is a token that does not decode. -/
theorem WellFormed.judged {tree : ParseTree} (wellFormed : tree.WellFormed) :
    ∀ stop ∈ tree.stops, stop.token.Judged stop.objection? := by
  induction wellFormed with
  | @node rule token children body shape below ih =>
    rw [(WellFormed.node shape below).stops_node]
    refine List.forall_mem_cons.2 ⟨Token.judged_of_shape shape, fun stop mem => ?_⟩
    obtain ⟨child, hchild, mem⟩ := List.mem_flatMap.1 mem
    exact ih child hchild stop mem

/-- Renaming a well-formed tree succeeds if all its tokens decode, and otherwise fails because of
the first that does not. -/
theorem WellFormed.run_rename {tree : ParseTree} (wellFormed : tree.WellFormed) (scope : Scope)
    (ids : IdSupply) :
    (∃ expr rest, (tree.rename scope).run ids = .ok expr rest ∧
      ∀ token ∈ tree.tokens, token.Decodes) ∨
    ∃ error rest, (tree.rename scope).run ids = .error error rest ∧
      ∃ before token after, tree.tokens = before ++ token :: after ∧
        (∀ earlier ∈ before, earlier.Decodes) ∧ ¬ token.Decodes ∧ token.Objects error := by
  have judged := wellFormed.judged
  have decodes : ∀ stop ∈ tree.stops, stop.objection? = none → stop.token.Decodes := by
    intro stop mem fine
    have hjudged := judged stop mem
    rw [fine] at hjudged
    cases hjudged with
    | fine hdecodes => exact hdecodes
  have ends := tree.walks_rename scope ids
  rw [← wellFormed.map_token_stops]
  generalize (tree.rename scope).run ids = result at ends ⊢
  cases ends with
  | @ok expr _ rest fine =>
    refine .inl ⟨expr, rest, rfl, List.forall_mem_map.2 fun stop mem => ?_⟩
    exact decodes stop mem (fine stop mem)
  | @error passed later stop error rest split fine objects =>
    have hjudged := judged stop (by simp [split])
    rw [objects] at hjudged
    cases hjudged with
    | flawed fails hobjects =>
      refine .inr ⟨error, rest, rfl, passed.map Stop.token, stop.token, later.map Stop.token, ?_,
        List.forall_mem_map.2 fun earlier mem => ?_, fails, hobjects⟩
      · rw [split, List.map_append, List.map_cons]
      · exact decodes earlier (by simp [split, mem]) (fine earlier mem)

end ParseTree

/-! ### Main result -/

theorem Expr.ofText_of_parsed {text : Text} {tree : ParseTree}
    (parsed : ParseTree.ofText text = .ok tree) :
    Expr.ofText text = match (tree.rename .empty).run .initial with
      | .ok expr _ => .ok expr
      | .error error _ => .error error := by
  rw [Expr.ofText, Program.ofText, parsed]
  dsimp only
  cases (tree.rename .empty).run .initial <;> rfl

/-- A text that is not grouped into a tree is refused with that error, whatever its bodies.  If it
is, reading succeeds exactly if all its tokens decode, and otherwise fails because of the first that
does not: nothing is ever wrong with the rules and the children of the tree. -/
theorem ofText_errors_in_order (text : Text) :
    (∀ error, ParseTree.ofText text = .error error → Expr.ofText text = .error (.parse error)) ∧
    ∀ tree, ParseTree.ofText text = .ok tree →
      ((∃ expr, Expr.ofText text = .ok expr) ↔ ∀ token ∈ Token.scan text, token.Decodes) ∧
      ∀ error, Expr.ofText text = .error error →
        (∀ name token, error ≠ .parse (.unrecognizedRule name token)) ∧
        (∀ rule token index, error ≠ .parse (.missingChild rule token index)) ∧
        ∃ before token after, Token.scan text = before ++ token :: after ∧
          (∀ earlier ∈ before, earlier.Decodes) ∧ ¬ token.Decodes ∧ token.Objects error := by
  refine ⟨fun error parsed => ?_, fun tree parsed => ?_⟩
  · rw [Expr.ofText, Program.ofText, parsed]
    rfl
  obtain ⟨wellFormed, tokens⟩ := ParseTree.ofTokens_eq_ok_iff.1 parsed
  rw [Expr.ofText_of_parsed parsed, ← tokens]
  rcases wellFormed.run_rename .empty .initial with ⟨expr, rest, hrun, decodes⟩ |
    ⟨error, rest, hrun, before, token, after, split, fine, fails, objects⟩
  · rw [hrun]
    refine ⟨⟨fun _ => decodes, fun _ => ⟨expr, rfl⟩⟩, ?_⟩
    rintro _ ⟨⟩
  · rw [hrun]
    refine ⟨⟨?_, fun decodes => absurd (decodes token (by simp [split])) fails⟩, ?_⟩
    · rintro ⟨_, ⟨⟩⟩
    rintro _ ⟨⟩
    refine ⟨?_, ?_, before, token, after, split, fine, fails, objects⟩
    · rintro name token' rfl
      cases objects
    · rintro rule token' index rfl
      cases objects

/-- A numeral that is none and an operator that is none: the numeral comes first.  With a token too
many, that is the error. -/
theorem ofText_errors_in_order_numeral_first :
    Expr.ofText "B+ Ié U^ T" = .error (.codec (.invalidDigit "é" "é")) ∧
    (∃ before token after, Token.scan "B+ Ié U^ T" = before ++ token :: after ∧
      (∀ earlier ∈ before, earlier.Decodes) ∧ ¬ token.Decodes ∧
        token.Objects (.codec (.invalidDigit "é" "é"))) ∧
    Expr.ofText "B+ Ié U^ T T" = .error (.parse (.trailingTokens (.ofLiteral "T" 4))) := by
  have parsed : ∃ tree, ParseTree.ofText "B+ Ié U^ T" = .ok tree := ⟨_, by cbv⟩
  obtain ⟨tree, htree⟩ := parsed
  have error : Expr.ofText "B+ Ié U^ T" = .error (.codec (.invalidDigit "é" "é")) := by cbv
  have extra : ParseTree.ofText "B+ Ié U^ T T" = .error (.trailingTokens (.ofLiteral "T" 4)) := by
    cbv
  exact ⟨error, (((ofText_errors_in_order _).2 tree htree).2 _ error).2.2,
    (ofText_errors_in_order _).1 _ extra⟩

end Lambda94
