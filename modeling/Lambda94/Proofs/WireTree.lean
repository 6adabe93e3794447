import Lambda94.Proofs.Reading
import Lambda94.Proofs.WireText

/-!
# The parse tree of an expression

The words of an expression are the tokens of a well-formed parse tree, `Expr.tree`.  Renaming that
tree gives every function a binder of its own and every variable that reads back the binder of its
function: `Expr.run_rename_tree`.  So the text of an expression is read as the canonical form of the
expression: `Program.ofText_text`.
-/

namespace Lambda94

/-! ### The tree and its tokens -/

/-- The parse tree of the words of a value, the first of them at the given position. -/
def Value.tree (position : Nat) : Value → ParseTree
  | .bool true => .node .boolean (Word.token ⟨'T', ""⟩ position) []
  | .bool false => .node .boolean (Word.token ⟨'F', ""⟩ position) []
  | .str s => .node .string (Word.token ⟨'S', Wire.encodeString s⟩ position) []
  | .int n =>
    if n < 0 then
      .node .unary (Word.token ⟨'U', "-"⟩ position)
        [.node .integer (Word.token ⟨'I', Wire.encodeNat n.natAbs⟩ (position + 1)) []]
    else .node .integer (Word.token ⟨'I', Wire.encodeNat n.natAbs⟩ position) []

namespace Expr

/-- The parse tree of the words of an expression, the first of them at the given position. -/
def tree (position : Nat) : Expr → ParseTree
  | .lit value => value.tree position
  | .unary op operand =>
    .node .unary (Word.token ⟨'U', Text.ofChar op.code⟩ position)
      [operand.tree (position + 1)]
  | .binary op left right =>
    .node .binary (Word.token ⟨'B', Text.ofChar op.code⟩ position)
      [left.tree (position + 1), right.tree (position + 1 + left.words.length)]
  | .cond c t e =>
    .node .conditional (Word.token ⟨'?', ""⟩ position)
      [c.tree (position + 1), t.tree (position + 1 + c.words.length),
        e.tree (position + 1 + c.words.length + t.words.length)]
  | .lam binder body =>
    .node .lambda (Word.token ⟨'L', Wire.encodeNat binder.natAbs⟩ position)
      [body.tree (position + 1)]
  | .var id => .node .variable (Word.token ⟨'v', Wire.encodeNat id.natAbs⟩ position) []

end Expr

theorem Value.tokens_tree (value : Value) (position : Nat) :
    (value.tree position).tokens = Word.tokens value.words position := by
  rcases value with s | b | n
  · rfl
  · cases b <;> rfl
  · rw [tree, words]
    split_ifs <;> rfl

theorem Expr.tokens_tree (expr : Expr) (position : Nat) :
    (expr.tree position).tokens = Word.tokens expr.words position := by
  induction expr generalizing position with
  | lit value => exact value.tokens_tree position
  | unary op operand ih =>
    rw [tree, words, Word.tokens_cons, ← ih]
    simp only [ParseTree.tokens, ParseTree.tokensAll, List.append_nil]
  | binary op left right ihl ihr =>
    rw [tree, words, Word.tokens_cons, Word.tokens_append, ← ihl, ← ihr]
    simp only [ParseTree.tokens, ParseTree.tokensAll, List.append_nil]
  | cond c t e ihc iht ihe =>
    rw [tree, words, Word.tokens_cons, Word.tokens_append, Word.tokens_append, List.length_append,
      ← Nat.add_assoc, ← ihc, ← iht, ← ihe]
    simp only [ParseTree.tokens, ParseTree.tokensAll, List.append_nil, List.append_assoc]
  | lam binder body ih =>
    rw [tree, words, Word.tokens_cons, ← ih]
    simp only [ParseTree.tokens, ParseTree.tokensAll, List.append_nil]
  | var id => rfl

theorem UnaryOp.length_code (op : UnaryOp) : (Text.ofChar op.code).length = 1 := by
  cases op <;> rfl

theorem BinaryOp.length_code (op : BinaryOp) : (Text.ofChar op.code).length = 1 := by
  rcases op with op | _
  · cases op <;> rfl
  · rfl

/-- The token of a word has the shape that its indicator announces. -/
theorem Word.shape_token {indicator : Char} {body : Text} (shape : TokenShape)
    (known : TokenShape.ofIndicator? [Text.unit indicator] = some shape)
    (fits : shape.body.fits body.length = true) (position : Nat) :
    (Word.token ⟨indicator, body⟩ position).shape = .ok shape := by
  rw [token, Token.shape]
  dsimp only
  rw [known]
  exact if_pos fits

theorem Wire.fits_encodeNat (n : Nat) :
    BodyShape.nonEmpty.fits (encodeNat n).length = true :=
  bne_iff_ne.2 fun h => encodeNat_ne_nil n (List.length_eq_zero_iff.1 h)

theorem Value.wellFormed_tree (value : Value) (position : Nat) :
    (value.tree position).WellFormed := by
  have integer : ∀ (n : Nat) (position : Nat),
      (ParseTree.node .integer (Word.token ⟨'I', Wire.encodeNat n⟩ position) []).WellFormed :=
    fun n position => .node
      (Word.shape_token ⟨.integer, 0, .nonEmpty⟩ rfl (Wire.fits_encodeNat n) position) nofun
  rcases value with s | b | n
  · exact .node (Word.shape_token ⟨.string, 0, .any⟩ rfl rfl position) nofun
  · cases b with
    | false => exact .node (Word.shape_token ⟨.boolean, 0, .empty⟩ rfl rfl position) nofun
    | true => exact .node (Word.shape_token ⟨.boolean, 0, .empty⟩ rfl rfl position) nofun
  · rw [tree]
    split_ifs
    · exact .node (Word.shape_token ⟨.unary, 1, .operator⟩ rfl rfl position)
        (List.forall_mem_singleton.2 (integer _ _))
    · exact integer _ _

theorem Expr.wellFormed_tree (expr : Expr) (position : Nat) : (expr.tree position).WellFormed := by
  induction expr generalizing position with
  | lit value => exact value.wellFormed_tree position
  | unary op operand ih =>
    exact .node (Word.shape_token ⟨.unary, 1, .operator⟩ rfl (beq_iff_eq.2 op.length_code) position)
      (List.forall_mem_singleton.2 (ih _))
  | binary op left right ihl ihr =>
    exact .node
      (Word.shape_token ⟨.binary, 2, .operator⟩ rfl (beq_iff_eq.2 op.length_code) position)
      (by simpa using ⟨ihl _, ihr _⟩)
  | cond c t e ihc iht ihe =>
    exact .node (Word.shape_token ⟨.conditional, 3, .empty⟩ rfl rfl position)
      (by simpa using ⟨ihc _, iht _, ihe _⟩)
  | lam binder body ih =>
    exact .node (Word.shape_token ⟨.lambda, 1, .nonEmpty⟩ rfl (Wire.fits_encodeNat _) position)
      (List.forall_mem_singleton.2 (ih _))
  | var id =>
    exact .node (Word.shape_token ⟨.variable, 0, .nonEmpty⟩ rfl (Wire.fits_encodeNat _) position)
      nofun

/-! ### Renaming the tree -/

theorem run_readNumeral {body : Text} {n : Int} (h : Wire.decodeInteger body = .ok n)
    (ids : IdSupply) : (readNumeral body).run ids = .ok n ids := by
  rw [readNumeral, h]
  rfl

namespace ParseTree

section

variable {scope : Scope} {ids ids₁ ids₂ rest : IdSupply} {token : Token}
  {tree₁ tree₂ tree₃ : ParseTree} {expr₁ expr₂ expr₃ : Expr} {n : Int}

theorem run_rename_integer (numeral : Wire.decodeInteger token.body = .ok n) :
    ((node .integer token []).rename scope).run ids = .ok (.lit (.int n)) ids := by
  rw [rename, run_bind_of_ok (run_readNumeral numeral ids)]
  rfl

theorem run_rename_variable (numeral : Wire.decodeInteger token.body = .ok n) :
    ((node .variable token []).rename scope).run ids = .ok (.var (scope.resolve n)) ids := by
  rw [rename, run_bind_of_ok (run_readNumeral numeral ids)]
  rfl

theorem run_rename_unary {op : UnaryOp} (code : token.body = Text.ofChar op.code)
    (h : (tree₁.rename scope).run ids = .ok expr₁ rest) :
    ((node .unary token [tree₁]).rename scope).run ids = .ok (.unary op expr₁) rest := by
  rw [rename, code, UnaryOp.ofCode?_code]
  dsimp only
  rw [run_bind_of_ok h]
  rfl

theorem run_rename_binary {op : BinaryOp} (code : token.body = Text.ofChar op.code)
    (h₁ : (tree₁.rename scope).run ids = .ok expr₁ ids₁)
    (h₂ : (tree₂.rename scope).run ids₁ = .ok expr₂ rest) :
    ((node .binary token [tree₁, tree₂]).rename scope).run ids =
      .ok (.binary op expr₁ expr₂) rest := by
  rw [rename, code, BinaryOp.ofCode?_code]
  dsimp only
  rw [run_bind_of_ok h₁, run_bind_of_ok h₂]
  rfl

theorem run_rename_conditional (h₁ : (tree₁.rename scope).run ids = .ok expr₁ ids₁)
    (h₂ : (tree₂.rename scope).run ids₁ = .ok expr₂ ids₂)
    (h₃ : (tree₃.rename scope).run ids₂ = .ok expr₃ rest) :
    ((node .conditional token [tree₁, tree₂, tree₃]).rename scope).run ids =
      .ok (.cond expr₁ expr₂ expr₃) rest := by
  rw [rename, run_bind_of_ok h₁, run_bind_of_ok h₂, run_bind_of_ok h₃]
  rfl

theorem run_rename_lambda (numeral : Wire.decodeInteger token.body = .ok n)
    (h : (tree₁.rename (scope.bind n ids.current)).run ids.advance = .ok expr₁ rest) :
    ((node .lambda token [tree₁]).rename scope).run ids = .ok (.lam ids.current expr₁) rest := by
  have fresh : freshId.run ids = .ok ids.current ids.advance := rfl
  rw [rename, run_bind_of_ok (run_readNumeral numeral ids), run_bind_of_ok fresh, run_bind_of_ok h]
  rfl

end

end ParseTree

theorem Value.run_rename_tree {value : Value} (fits : value.Fits) (encodable : value.Encodable)
    (scope : Scope) (ids : IdSupply) (position : Nat) :
    ((value.tree position).rename scope).run ids = .ok value.spelled ids := by
  rcases value with s | b | n
  · rw [tree, ParseTree.rename]
    show EStateM.Result.ok (Expr.lit (.str (Wire.decodeString (Wire.encodeString s)))) ids = _
    rw [Wire.decodeString_encodeString encodable]
    rfl
  · cases b with
    | false | true => rfl
  · obtain ⟨lower, upper⟩ := fits
    have numeral : Wire.decodeInteger (Wire.encodeNat n.natAbs) = .ok (wrap n.natAbs) :=
      Wire.decodeInteger_encodeNat _
    rw [tree, spelled]
    split_ifs with hn
    · have habs : (n.natAbs : Int) = -n := by omega
      rw [habs] at numeral
      exact ParseTree.run_rename_unary rfl (ParseTree.run_rename_integer numeral)
    · have habs : (n.natAbs : Int) = n := by omega
      rw [habs, wrap_eq_self (by omega) (by omega)] at numeral
      exact ParseTree.run_rename_integer numeral

/-- The scope has for each numeral the binder that `rename` has for the id that reads back. -/
def Scope.Resolves (scope : Scope) (binders : List Int) (rename : Int → Int) : Prop :=
  scope.Ordered ∧ ∀ id, readsBack binders id = true → scope.resolve id.natAbs = rename id

theorem Scope.Resolves.empty : Scope.empty.Resolves [] id := by
  refine ⟨Avl.ordered_empty, fun n h => ?_⟩
  have := readsBack_nil_iff.1 h
  show (n.natAbs : Int) = n
  omega

theorem Scope.Resolves.bind {scope : Scope} {binders : List Int} {rename : Int → Int}
    (h : scope.Resolves binders rename) (binder next : Int) :
    (scope.bind binder.natAbs next).Resolves (binder :: binders)
      (Function.update rename binder next) := by
  refine ⟨h.1.insert _ _, fun id hid => ?_⟩
  rw [readsBack_cons_iff] at hid
  rw [resolve, lookup?_bind h.1]
  split_ifs at hid with habs
  · rw [if_pos (by omega), ← hid, Function.update_self]
    rfl
  · rw [if_neg (by omega), Function.update_of_ne (by rintro rfl; exact habs rfl)]
    exact h.2 id hid

/-- Renaming the parse tree of an expression renumbers the expression. -/
theorem Expr.run_rename_tree {expr : Expr} (fits : expr.Fits) (encodable : expr.Encodable)
    {scope : Scope} {binders : List Int} {rename : Int → Int} (reads : expr.ReadsBack binders)
    (resolves : scope.Resolves binders rename) (ids : IdSupply) (position : Nat) :
    ((expr.tree position).rename scope).run ids =
      .ok (expr.renumber rename ids.current).spellNegatives (ids.skip expr.binders.length) := by
  have numeral : ∀ {id : Int}, id.natAbs < 2 ^ 63 →
      Wire.decodeInteger (Wire.encodeNat id.natAbs) = .ok id.natAbs := by
    intro id h
    rw [Wire.decodeInteger_encodeNat, wrap_eq_self (by omega) (by omega)]
  induction expr generalizing scope binders rename ids position with
  | lit value => exact value.run_rename_tree fits encodable scope ids position
  | unary op operand ih =>
    exact ParseTree.run_rename_unary rfl (ih fits encodable reads resolves ids _)
  | binary op left right ihl ihr =>
    have hleft := ihl fits.1 encodable.1 reads.1 resolves ids (position + 1)
    have hright := ihr fits.2 encodable.2 reads.2 resolves (ids.skip left.binders.length)
      (position + 1 + left.words.length)
    rw [IdSupply.current_skip, IdSupply.skip_skip] at hright
    rw [Expr.binders, List.length_append]
    exact ParseTree.run_rename_binary rfl hleft hright
  | cond c t e ihc iht ihe =>
    have hcond := ihc fits.1 encodable.1 reads.1 resolves ids (position + 1)
    have hthen := iht fits.2.1 encodable.2.1 reads.2.1 resolves (ids.skip c.binders.length)
      (position + 1 + c.words.length)
    have helse := ihe fits.2.2 encodable.2.2 reads.2.2 resolves
      (ids.skip (c.binders.length + t.binders.length))
      (position + 1 + c.words.length + t.words.length)
    rw [IdSupply.current_skip, IdSupply.skip_skip] at hthen
    rw [IdSupply.current_skip, IdSupply.skip_skip, Nat.cast_add, ← Int.sub_sub] at helse
    rw [Expr.binders, List.length_append, List.length_append]
    exact ParseTree.run_rename_conditional hcond hthen helse
  | lam binder body ih =>
    have hbody := ih fits.2 encodable.2 reads (resolves.bind binder ids.current) ids.advance
      (position + 1)
    rw [IdSupply.current_advance, IdSupply.skip_advance] at hbody
    exact ParseTree.run_rename_lambda (numeral fits.1) hbody
  | var id =>
    rw [renumber, spellNegatives, ← resolves.2 id reads]
    exact ParseTree.run_rename_variable (numeral fits)

/-! ### Reading the text -/

/-- The text of an expression whose strings can be encoded is grouped into the parse tree of the
expression. -/
theorem ParseTree.ofText_text {expr : Expr} (encodable : expr.Encodable) :
    ParseTree.ofText expr.text = .ok (expr.tree 0) := by
  have scanned : Token.scan expr.text = (expr.tree 0).tokens := by
    rw [expr.tokens_tree, Expr.scan_text encodable]
  rw [ParseTree.ofText, scanned]
  exact ParseTree.ofTokens_eq_ok_iff.2 ⟨expr.wellFormed_tree 0, rfl⟩

/-- The text of an expression that can be written is read as the canonical form of the
expression. -/
theorem Program.ofText_text {expr : Expr} (fits : expr.Fits) (encodable : expr.Encodable)
    (reads : expr.ReadsBack []) :
    Program.ofText expr.text = .ok ⟨expr.canonical, expr.binders.length⟩ := by
  have run := expr.run_rename_tree fits encodable reads .empty .initial 0
  rw [Program.ofText, ParseTree.ofText_text encodable]
  dsimp only
  rw [run]
  simp [IdSupply.initial, IdSupply.ofSeed, IdSupply.skip, IdSupply.current, Expr.canonical]

end Lambda94
