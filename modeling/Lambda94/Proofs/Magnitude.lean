import Lambda94.Proofs.FreeNumerals
import Lambda94.Proofs.WireTree

/-!
# The size of the numbers in a program

The integers and the free variables of a program that was read have 64 bits, since numerals are
wrapped.  Its binders count down from `-1`, and there are no more of them than units, so in a
text of less than `2 ^ 63` units they are as small: `Program.fits_of_ofText`.
-/

namespace Lambda94

/-! ### Functions and tokens -/

namespace Text

theorem length_foldr_step_le (text : Text) :
    (words.close (text.foldr words.step ([], [])).1 (text.foldr words.step ([], [])).2).length ≤
      text.length := by
  induction text with
  | nil => exact Nat.le_refl 0
  | cons u text ih =>
    rw [List.foldr_cons, List.length_cons]
    generalize text.foldr words.step ([], []) = state at ih ⊢
    obtain ⟨w, ws⟩ := state
    by_cases hu : isBlank u
    · simp only [words.step, if_pos hu]
      exact Nat.le_succ_of_le ih
    · simp only [words.step, if_neg hu]
      cases w with
      | nil => exact Nat.succ_le_succ ih
      | cons v w => exact Nat.le_succ_of_le ih

/-- There are no more words than units. -/
theorem length_words_le (text : Text) : (words text).length ≤ text.length :=
  length_foldr_step_le text

end Text

theorem Token.length_scan_le (text : Text) : (scan text).length ≤ text.length := by
  rw [scan, List.length_map, List.length_zipIdx]
  exact Text.length_words_le text

namespace ParseTree

/-- An expression has no more functions than its parse tree has tokens. -/
theorem length_binders_le {tree : ParseTree} {expr : Expr}
    (shape : ∀ path, Option.Rel Matches (tree.at? path) (expr.at? path)) :
    expr.binders.length ≤ tree.tokens.length := by
  have head : ∀ {tree : ParseTree} {expr : Expr},
      (∀ path, Option.Rel Matches (tree.at? path) (expr.at? path)) → tree.Matches expr := by
    intro tree expr shape
    cases shape [] with
    | some h => exact h
  induction expr generalizing tree with
  | lit value => exact Nat.zero_le _
  | unary op operand ih =>
    cases head shape with
    | unary code tree₁ =>
      have hbelow : operand.binders.length ≤ tree₁.tokens.length := ih fun path => shape (0 :: path)
      simp only [Expr.binders, tokens, tokensAll, List.length_append, List.length_cons]
      omega
  | binary op left right ihl ihr =>
    cases head shape with
    | binary code tree₁ tree₂ =>
      have hleft : left.binders.length ≤ tree₁.tokens.length := ihl fun path => shape (0 :: path)
      have hright : right.binders.length ≤ tree₂.tokens.length := ihr fun path => shape (1 :: path)
      simp only [Expr.binders, tokens, tokensAll, List.length_append, List.length_cons]
      omega
  | cond c t e ihc iht ihe =>
    cases head shape with
    | conditional token tree₁ tree₂ tree₃ =>
      have hcond : c.binders.length ≤ tree₁.tokens.length := ihc fun path => shape (0 :: path)
      have hthen : t.binders.length ≤ tree₂.tokens.length := iht fun path => shape (1 :: path)
      have helse : e.binders.length ≤ tree₃.tokens.length := ihe fun path => shape (2 :: path)
      simp only [Expr.binders, tokens, tokensAll, List.length_append, List.length_cons]
      omega
  | lam binder body ih =>
    cases head shape with
    | lambda numeral tree₁ =>
      have hbelow : body.binders.length ≤ tree₁.tokens.length := ih fun path => shape (0 :: path)
      simp only [Expr.binders, tokens, tokensAll, List.length_append, List.length_cons]
      omega
  | var id => exact Nat.zero_le _

end ParseTree

theorem Program.length_binders {text : Text} {program : Program}
    (read : Program.ofText text = .ok program) :
    program.expr.binders.length = program.binderCount := by
  obtain ⟨tree, -, -, binders⟩ := Program.renamed_of_ofText read
  rw [binders, length_countdown]

/-- A program has no more functions than its text has units. -/
theorem Program.binderCount_le {text : Text} {program : Program}
    (read : Program.ofText text = .ok program) : program.binderCount ≤ text.length := by
  obtain ⟨tree, parsed, renamed, -⟩ := Program.renamed_of_ofText read
  have htokens : tree.tokens = Token.scan text := (ParseTree.ofTokens_eq_ok_iff.1 parsed).2
  have hle := ParseTree.length_binders_le renamed.shape
  rw [Program.length_binders read, htokens] at hle
  exact hle.trans (Token.length_scan_le text)

/-! ### Numbers -/

theorem Wire.decodeInteger_bounds {body : Text} {n : Int} (h : decodeInteger body = .ok n) :
    -2 ^ 63 ≤ n ∧ n < 2 ^ 63 := by
  obtain ⟨digits, -, hwrap⟩ := decodeInteger_eq_ok_iff.1 h
  have lower := wrap_lower (Numeral.value base digits)
  have upper := wrap_upper (Numeral.value base digits)
  omega

/-- A variable that is read back belongs to a function around it or is not negative. -/
theorem mem_or_nonneg_of_readsBack {binders : List Int} {id : Int}
    (h : readsBack binders id = true) : id ∈ binders ∨ 0 ≤ id := by
  induction binders with
  | nil => exact .inr (readsBack_nil_iff.1 h)
  | cons binder binders ih =>
    rw [readsBack_cons_iff] at h
    split_ifs at h
    · exact .inl (h ▸ List.mem_cons_self)
    · exact (ih h).imp_left (List.mem_cons_of_mem _)

/-- A negative variable that is read back is as small as the binders are. -/
theorem Expr.fits_of_readsBack {binders : List Int} {expr : Expr}
    (h : expr.Each Value.Fits (·.natAbs < 2 ^ 63) (· < 2 ^ 63))
    (small : ∀ binder ∈ binders, binder.natAbs < 2 ^ 63) (reads : expr.ReadsBack binders) :
    expr.Fits := by
  induction expr generalizing binders with
  | lit value => exact h
  | unary op operand ih => exact ih h small reads
  | binary op left right ihl ihr => exact ⟨ihl h.1 small reads.1, ihr h.2 small reads.2⟩
  | cond c t e ihc iht ihe =>
    exact ⟨ihc h.1 small reads.1, iht h.2.1 small reads.2.1, ihe h.2.2 small reads.2.2⟩
  | lam binder body ih =>
    exact ⟨h.1, ih h.2 (List.forall_mem_cons.2 ⟨h.1, small⟩) reads⟩
  | var id =>
    have hlt : id < 2 ^ 63 := h
    rcases mem_or_nonneg_of_readsBack reads with hmem | hnonneg
    · exact small id hmem
    · show id.natAbs < 2 ^ 63
      omega

/-- If the variables of a program that was read can be written, its integers have 64 bits and the
absolute values of its ids have 63. -/
theorem Program.fits_of_ofText {text : Text} {program : Program}
    (read : Program.ofText text = .ok program) (short : text.length < 2 ^ 63)
    (reads : program.expr.ReadsBack []) : program.expr.Fits := by
  have hcount := Program.binderCount_le read
  obtain ⟨tree, parsed, renamed, binders⟩ := Program.renamed_of_ofText read
  have small : ∀ id ∈ program.expr.binders, -2 ^ 63 < id ∧ id < 0 := by
    intro id hid
    rw [binders, mem_countdown_iff] at hid
    omega
  refine Expr.fits_of_readsBack (Expr.each_of_at? fun path node hat => ?_) (by simp) reads
  have hshape := renamed.shape path
  rw [hat] at hshape
  cases htree : tree.at? path with
  | none =>
    rw [htree] at hshape
    cases hshape
  | some node' =>
    rw [htree] at hshape
    cases hshape with
    | some head =>
      cases head with
      | boolean | string | unary | binary | conditional => trivial
      | integer numeral => exact Wire.decodeInteger_bounds numeral
      | lambda numeral tree binder body =>
        have := small binder (Expr.mem_binders_of_at? hat)
        show binder.natAbs < 2 ^ 63
        omega
      | «variable» numeral id =>
        show id < 2 ^ 63
        have href : tree.RefersAt path _ := ⟨_, htree, rfl, numeral⟩
        rcases ParseTree.nearestBinder_or_freeAt href with ⟨outer, hnearest⟩ | hfree
        · obtain ⟨binder, body, houter, hvar⟩ := renamed.bound path _ outer href hnearest
          obtain rfl : id = binder := by simpa [hat] using hvar
          have := small id (Expr.mem_binders_of_at? houter)
          omega
        · have hvar := renamed.free path _ hfree
          rw [hat] at hvar
          obtain rfl := Expr.var.inj (Option.some.inj hvar)
          exact (Wire.decodeInteger_bounds numeral).2

end Lambda94
