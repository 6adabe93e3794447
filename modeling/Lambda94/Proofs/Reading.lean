import Lambda94.Proofs.WellFormed

/-!
# Reading trees and writing them down

The tokens of a well-formed tree, followed by anything, are read as that tree, and the rest is left:
`readWithin_tokens`.  What is read as a tree began with the tokens of the tree:
`tokens_of_readWithin`.  So reading from an index returns a tree exactly if the tree is well formed
and its tokens stand there, `read_eq_ok_iff`, and a list of tokens is read as a tree exactly if the
tree is well formed and these are its tokens, `ofTokens_eq_ok_iff`.
-/

namespace Lambda94

namespace ParseTree

theorem tokens_ne_nil (tree : ParseTree) : tree.tokens ≠ [] := by
  cases tree with
  | node rule token children => exact List.cons_ne_nil _ _

theorem length_tokens_le_of_mem {children : List ParseTree} {child : ParseTree}
    (h : child ∈ children) : child.tokens.length ≤ (tokensAll children).length := by
  induction children with
  | nil => exact absurd h List.not_mem_nil
  | cons first others ih =>
    rw [tokensAll, List.length_append]
    rcases List.mem_cons.1 h with rfl | h
    · exact Nat.le_add_right _ _
    · exact Nat.le_trans (ih h) (Nat.le_add_left _ _)

/-! ### Writing, then reading -/

theorem readMany_tokensAll {read : List Token → Except ParseError (ParseTree × List Token)}
    {children : List ParseTree}
    (h : ∀ child ∈ children, ∀ rest, read (child.tokens ++ rest) = .ok (child, rest))
    (rest : List Token) :
    readMany read children.length (tokensAll children ++ rest) = .ok (children, rest) := by
  induction children with
  | nil => rfl
  | cons first others ih =>
    have hfirst := h first List.mem_cons_self (tokensAll others ++ rest)
    have hothers := ih fun child hc => h child (List.mem_cons_of_mem _ hc)
    rw [List.length_cons, readMany, tokensAll, List.append_assoc]
    exact bind_eq_ok_iff.2 ⟨_, hfirst, bind_eq_ok_iff.2 ⟨_, hothers, rfl⟩⟩

/-- A well-formed tree is read from its tokens, whatever follows them. -/
theorem readWithin_tokens {tree : ParseTree} (wellFormed : tree.WellFormed) {bound : Nat}
    (enough : tree.tokens.length ≤ bound) (rest : List Token) :
    readWithin bound (tree.tokens ++ rest) = .ok (tree, rest) := by
  induction wellFormed generalizing bound rest with
  | @node rule token children body shape below ih =>
    rw [tokens, List.length_cons] at enough
    obtain ⟨bound, rfl⟩ : ∃ b, bound = b + 1 := Nat.exists_eq_succ_of_ne_zero (by omega)
    have hchildren : ∀ child ∈ children, ∀ rest,
        readWithin bound (child.tokens ++ rest) = .ok (child, rest) := by
      intro child hc rest
      have hlength := length_tokens_le_of_mem hc
      exact ih child hc (by omega) rest
    have hmany := readMany_tokensAll hchildren rest
    rw [tokens, List.cons_append, readWithin]
    exact bind_eq_ok_iff.2 ⟨_, shape, bind_eq_ok_iff.2 ⟨_, hmany, rfl⟩⟩

/-! ### Reading, then writing -/

theorem tokensAll_of_readMany {read : List Token → Except ParseError (ParseTree × List Token)}
    (hread : ∀ {tokens tree rest}, read tokens = .ok (tree, rest) → tokens = tree.tokens ++ rest)
    {count : Nat} {tokens rest : List Token} {children : List ParseTree}
    (h : readMany read count tokens = .ok (children, rest)) :
    tokens = tokensAll children ++ rest := by
  induction count generalizing tokens children with
  | zero =>
    cases h
    rfl
  | succ count ih =>
    obtain ⟨⟨first, tokens₁⟩, hfirst, h⟩ := bind_eq_ok_iff.1 h
    obtain ⟨⟨others, tokens₂⟩, hothers, h⟩ := bind_eq_ok_iff.1 h
    cases h
    rw [hread hfirst, tokensAll, List.append_assoc]
    exact congrArg _ (ih hothers)

/-- What is read as a tree begins with the tokens of that tree, and the rest is left. -/
theorem tokens_of_readWithin {bound : Nat} {tokens rest : List Token} {tree : ParseTree}
    (h : readWithin bound tokens = .ok (tree, rest)) : tokens = tree.tokens ++ rest := by
  induction bound generalizing tokens rest tree with
  | zero => cases h
  | succ bound ih =>
    cases tokens with
    | nil => cases h
    | cons token others =>
      obtain ⟨shape, -, h⟩ := bind_eq_ok_iff.1 h
      obtain ⟨⟨children, rest'⟩, hmany, h⟩ := bind_eq_ok_iff.1 h
      cases h
      rw [ParseTree.tokens, List.cons_append]
      exact congrArg _ (tokensAll_of_readMany ih hmany)

/-- An expression is read at an index exactly if the tree is well formed and its tokens are those
from that index up to the one that is returned. -/
theorem read_eq_ok_iff {tokens : List Token} {start next : Nat} {tree : ParseTree} :
    read tokens start = .ok (tree, next) ↔
      tree.WellFormed ∧ start < next ∧ next ≤ tokens.length ∧
        (tokens.drop start).take (next - start) = tree.tokens := by
  have hpos := List.length_pos_iff.2 tree.tokens_ne_nil
  have havailable := List.length_drop (i := start) (l := tokens)
  constructor
  · intro h
    obtain ⟨⟨tree', rest⟩, hwithin, hnext⟩ := bind_eq_ok_iff.1 h
    cases hnext
    have htokens := tokens_of_readWithin hwithin
    have hlength : (tokens.drop start).length = tree.tokens.length + rest.length := by
      rw [htokens, List.length_append]
    refine ⟨wellFormed_of_readWithin hwithin, by omega, by omega, ?_⟩
    rw [show start + ((tokens.drop start).length - rest.length) - start = tree.tokens.length by
      omega, htokens, List.take_left]
  · rintro ⟨wellFormed, -, hnext, htake⟩
    have hsplit : tokens.drop start = tree.tokens ++ (tokens.drop start).drop (next - start) := by
      rw [← htake, List.take_append_drop]
    have hlength := congrArg List.length hsplit
    rw [List.length_append, List.length_drop (i := next - start)] at hlength
    have henough : tree.tokens.length ≤ (tokens.drop start).length := by omega
    have hwithin := readWithin_tokens wellFormed henough ((tokens.drop start).drop (next - start))
    rw [← hsplit] at hwithin
    refine bind_eq_ok_iff.2 ⟨_, hwithin, ?_⟩
    dsimp only
    rw [List.length_drop (i := next - start),
      show start + ((tokens.drop start).length - ((tokens.drop start).length - (next - start))) =
        next by omega]

/-- A list of tokens is read as a tree exactly if it is the list of the tokens of that tree and the
tree is well formed. -/
theorem ofTokens_eq_ok_iff {tokens : List Token} {tree : ParseTree} :
    ofTokens tokens = .ok tree ↔ tree.WellFormed ∧ tree.tokens = tokens := by
  have hpos := List.length_pos_iff.2 tree.tokens_ne_nil
  constructor
  · intro h
    unfold ofTokens at h
    dsimp only at h
    split at h
    · obtain ⟨_, ⟨⟩, _⟩ := bind_eq_ok_iff.1 h
    · obtain ⟨⟨tree', next⟩, hread, h⟩ := bind_eq_ok_iff.1 h
      dsimp only at h
      split at h
      next => cases h
      next hend =>
        cases h
        -- The first token after the tree is beyond the end of the list.
        obtain ⟨wellFormed, -, -, htake⟩ := read_eq_ok_iff.1 hread
        rw [List.drop_zero, Nat.sub_zero,
          List.take_of_length_le (List.getElem?_eq_none_iff.1 hend)] at htake
        exact ⟨wellFormed, htake.symm⟩
  · rintro ⟨wellFormed, rfl⟩
    have hread : read tree.tokens 0 = .ok (tree, tree.tokens.length) :=
      read_eq_ok_iff.2 ⟨wellFormed, hpos, Nat.le_refl _, List.take_length⟩
    have hend : tree.tokens[tree.tokens.length]? = none :=
      List.getElem?_eq_none_iff.2 (Nat.le_refl _)
    unfold ofTokens
    dsimp only
    rw [if_neg (by simpa using tree.tokens_ne_nil)]
    refine bind_eq_ok_iff.2 ⟨_, hread, ?_⟩
    dsimp only
    rw [hend]

/-- The reader accepts the prefix grammar and nothing else, at any index and for a whole list, and
the tokens determine the tree. -/
theorem reads_prefix_grammar (tokens : List Token) :
    (∀ start tree next, read tokens start = .ok (tree, next) ↔
      tree.WellFormed ∧ start < next ∧ next ≤ tokens.length ∧
        (tokens.drop start).take (next - start) = tree.tokens) ∧
    (∀ tree, ofTokens tokens = .ok tree ↔ tree.WellFormed ∧ tree.tokens = tokens) ∧
    ((∃ tree, ofTokens tokens = .ok tree) ↔
      ∃! tree : ParseTree, tree.WellFormed ∧ tree.tokens = tokens) := by
  refine ⟨fun start tree next => read_eq_ok_iff, fun tree => ofTokens_eq_ok_iff, ?_, ?_⟩
  · rintro ⟨tree, hread⟩
    refine ⟨tree, ofTokens_eq_ok_iff.1 hread, fun other hother => ?_⟩
    have hread' := ofTokens_eq_ok_iff.2 hother
    rw [hread] at hread'
    exact (Except.ok.inj hread').symm
  · rintro ⟨tree, htree, -⟩
    exact ⟨tree, ofTokens_eq_ok_iff.2 htree⟩

end ParseTree

end Lambda94
