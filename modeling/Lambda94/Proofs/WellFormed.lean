import Lambda94.Proofs.Outcome
import Lambda94.Wire.ParseTree

/-!
# Well-formed parse trees

A parse tree is well formed if every node is what its token announces: the token has a known
indicator and a fitting body, and the node has the rule and the number of children of that
indicator.  Every tree that was read from tokens is well formed: `wellFormed_of_ofTokens`.
-/

namespace Lambda94

/-- The number of expressions that follow a token of the rule. -/
def Rule.arity : Rule → Nat
  | .boolean | .integer | .string | .variable | .unrecognized _ => 0
  | .unary | .lambda => 1
  | .binary => 2
  | .conditional => 3

theorem TokenShape.rule_mem_all {indicator : Text} {shape : TokenShape}
    (h : TokenShape.ofIndicator? indicator = some shape) : shape.rule ∈ Rule.all := by
  unfold TokenShape.ofIndicator? at h
  split at h <;> first | cases h; decide | cases h

theorem TokenShape.arity_eq {indicator : Text} {shape : TokenShape}
    (h : TokenShape.ofIndicator? indicator = some shape) : shape.arity = shape.rule.arity := by
  unfold TokenShape.ofIndicator? at h
  split at h <;> cases h <;> rfl

theorem Token.ofIndicator?_of_shape {token : Token} {shape : TokenShape}
    (h : token.shape = .ok shape) : TokenShape.ofIndicator? token.indicator = some shape := by
  unfold Token.shape at h
  cases hshape : TokenShape.ofIndicator? token.indicator with
  | none => simp [hshape] at h
  | some known =>
    rw [hshape] at h
    dsimp only at h
    split at h
    · rw [Except.ok.inj h]
    · cases h

namespace ParseTree

/-- Every node is what its token announces. -/
inductive WellFormed : ParseTree → Prop
  | node {rule : Rule} {token : Token} {children : List ParseTree} {body : BodyShape}
      (shape : token.shape = .ok ⟨rule, children.length, body⟩)
      (below : ∀ child ∈ children, WellFormed child) : WellFormed (.node rule token children)

theorem WellFormed.rule_mem_all {rule : Rule} {token : Token} {children : List ParseTree}
    (h : (ParseTree.node rule token children).WellFormed) : rule ∈ Rule.all := by
  cases h with
  | node shape _ => exact TokenShape.rule_mem_all (Token.ofIndicator?_of_shape shape)

theorem WellFormed.length_children {rule : Rule} {token : Token} {children : List ParseTree}
    (h : (ParseTree.node rule token children).WellFormed) : children.length = rule.arity := by
  cases h with
  | node shape _ => exact TokenShape.arity_eq (Token.ofIndicator?_of_shape shape)

/-! ### Reading -/

theorem readMany_eq_ok {read : List Token → Except ParseError (ParseTree × List Token)}
    {count : Nat} {tokens rest : List Token} {children : List ParseTree}
    (h : readMany read count tokens = .ok (children, rest)) :
    children.length = count ∧
      ∀ child ∈ children, ∃ tokens rest, read tokens = .ok (child, rest) := by
  induction count generalizing tokens children with
  | zero =>
    cases h
    exact ⟨rfl, fun child hc => absurd hc List.not_mem_nil⟩
  | succ count ih =>
    obtain ⟨⟨first, tokens₁⟩, hfirst, h⟩ := bind_eq_ok_iff.1 h
    obtain ⟨⟨others, tokens₂⟩, hothers, h⟩ := bind_eq_ok_iff.1 h
    cases h
    obtain ⟨hlength, hread⟩ := ih hothers
    refine ⟨congrArg (· + 1) hlength, fun child hc => ?_⟩
    rcases List.mem_cons.1 hc with rfl | hc
    · exact ⟨tokens, tokens₁, hfirst⟩
    · exact hread child hc

theorem wellFormed_of_readWithin {bound : Nat} {tokens rest : List Token} {tree : ParseTree}
    (h : readWithin bound tokens = .ok (tree, rest)) : tree.WellFormed := by
  induction bound generalizing tokens rest tree with
  | zero => cases h
  | succ bound ih =>
    cases tokens with
    | nil => cases h
    | cons token tokens =>
      obtain ⟨shape, hshape, h⟩ := bind_eq_ok_iff.1 h
      obtain ⟨⟨children, tokens'⟩, hmany, h⟩ := bind_eq_ok_iff.1 h
      cases h
      obtain ⟨hlength, hread⟩ := readMany_eq_ok hmany
      have hnode : token.shape = .ok ⟨shape.rule, children.length, shape.body⟩ := by
        rw [hshape, hlength]
      refine .node hnode fun child hc => ?_
      obtain ⟨tokens, rest, hchild⟩ := hread child hc
      exact ih hchild

theorem wellFormed_of_ofTokens {tokens : List Token} {tree : ParseTree}
    (h : ofTokens tokens = .ok tree) : tree.WellFormed := by
  unfold ofTokens at h
  dsimp only at h
  split at h
  · obtain ⟨_, ⟨⟩, _⟩ := bind_eq_ok_iff.1 h
  · obtain ⟨⟨read, next⟩, hread, h⟩ := bind_eq_ok_iff.1 h
    obtain ⟨⟨first, rest⟩, hwithin, hnext⟩ := bind_eq_ok_iff.1 hread
    cases hnext
    dsimp only at h
    split at h
    · cases h
    · cases h
      exact wellFormed_of_readWithin hwithin

end ParseTree

end Lambda94
