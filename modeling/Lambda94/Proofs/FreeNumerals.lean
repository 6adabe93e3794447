import Lambda94.Proofs.Renaming

/-!
# Free variables and binders

Binders are negative and a free variable keeps its numeral, so the two do not meet as long as no
numeral is negative.  A numeral is wrapped to 64 bits when it is decoded, so it is negative if the
number that was written leaves `2 ^ 63` or more when divided by `2 ^ 64`; and such a number can be
the id of a binder.  `free_variables_apart_iff` says that this is the only way in which a free
variable and a binder can meet, and `wrapped_variable_captured` is a program where they do.
-/

namespace Lambda94

/-! ### The sign of a numeral -/

theorem wrap_nonneg_iff (n : Nat) : 0 ≤ wrap n ↔ n % 2 ^ 64 < 2 ^ 63 := by
  rw [wrap, Int.bmod_def]
  split_ifs <;> omega

theorem Wire.decodeInteger_eq_ok_iff {body : Text} {n : Int} :
    Wire.decodeInteger body = .ok n ↔
      ∃ digits, Wire.bodyDigits body = .ok digits ∧ n = wrap (Numeral.value Wire.base digits) := by
  rw [Wire.decodeInteger]
  cases Wire.bodyDigits body with
  | error error => simp [Except.map]
  | ok digits => simp [Except.map, eq_comm]

namespace ParseTree

/-! ### Three ways to say that free variables and binders are apart -/

/-- Every free variable of the tree has an id that is not negative and that no function of the
expression has. -/
def FreeApart (tree : ParseTree) (expr : Expr) : Prop :=
  ∀ path numeral, tree.FreeAt path numeral →
    ∃ id, expr.at? path = some (.var id) ∧ 0 ≤ id ∧ id ∉ expr.binders

/-- Every variable of the expression with a negative id is in the body of a function with that id,
and stands for a variable of the tree that this function binds. -/
def NegativeBound (tree : ParseTree) (expr : Expr) : Prop :=
  ∀ path id, expr.at? path = some (.var id) → id < 0 →
    ∃ outer body numeral, expr.at? outer = some (.lam id body) ∧ tree.RefersAt path numeral ∧
      tree.NearestBinder path numeral outer

/-- The number written by a free variable leaves less than `2 ^ 63` when divided by `2 ^ 64`. -/
def FreeNumeralsSmall (tree : ParseTree) : Prop :=
  ∀ path node digits, tree.at? path = some node → Wire.bodyDigits node.token.body = .ok digits →
    tree.FreeAt path (wrap (Numeral.value Wire.base digits)) →
    Numeral.value Wire.base digits % 2 ^ 64 < 2 ^ 63

/-- A free numeral is small if and only if it is not negative once decoded. -/
theorem freeNumeralsSmall_iff {tree : ParseTree} :
    tree.FreeNumeralsSmall ↔ ∀ path numeral, tree.FreeAt path numeral → 0 ≤ numeral := by
  constructor
  · intro h path numeral hfree
    obtain ⟨node, hat, -, hnumeral⟩ := hfree.1
    obtain ⟨digits, hdigits, hwrap⟩ := Wire.decodeInteger_eq_ok_iff.1 hnumeral
    rw [hwrap] at hfree ⊢
    rw [wrap_nonneg_iff]
    exact h path node digits hat hdigits hfree
  · intro h path node digits _ _ hfree
    rw [← wrap_nonneg_iff]
    exact h path _ hfree

end ParseTree

/-! ### Main results -/

/-- A free variable of a program keeps its decoded numeral, which is the id of a function exactly if
it is one of the `binderCount` ids below zero.  Free variables and binders are apart, in either of
two ways to say it, exactly if every number that is written by a free variable leaves less than
`2 ^ 63` when divided by `2 ^ 64`. -/
theorem free_variables_apart_iff {text : Text} {tree : ParseTree} {program : Program}
    (parsed : ParseTree.ofText text = .ok tree) (read : Program.ofText text = .ok program) :
    (∀ path numeral, tree.FreeAt path numeral → program.expr.at? path = some (.var numeral) ∧
      (numeral ∈ program.expr.binders ↔ -program.binderCount ≤ numeral ∧ numeral < 0)) ∧
    (tree.FreeApart program.expr ↔ tree.FreeNumeralsSmall) ∧
    (tree.NegativeBound program.expr ↔ tree.FreeNumeralsSmall) := by
  obtain ⟨tree', parsed', renamed, binders⟩ := Program.renamed_of_ofText read
  obtain rfl : tree = tree' := Except.ok.inj (parsed.symm.trans parsed')
  have hmem : ∀ id, id ∈ program.expr.binders ↔ -program.binderCount ≤ id ∧ id < 0 := by
    intro id
    rw [binders, mem_countdown_iff]
    omega
  rw [ParseTree.freeNumeralsSmall_iff]
  refine ⟨fun path numeral hfree => ⟨renamed.free path numeral hfree, hmem numeral⟩,
    ⟨fun h path numeral hfree => ?_, fun h path numeral hfree => ?_⟩,
    ⟨fun h path numeral hfree => ?_, fun h path id hat hneg => ?_⟩⟩
  · obtain ⟨id, hat, hid, -⟩ := h path numeral hfree
    obtain rfl : numeral = id := by simpa [renamed.free path numeral hfree] using hat
    exact hid
  · refine ⟨numeral, renamed.free path numeral hfree, h path numeral hfree, fun hbinder => ?_⟩
    have hneg := ((hmem numeral).1 hbinder).2
    have hnonneg := h path numeral hfree
    omega
  · by_contra hneg
    obtain ⟨outer, body, numeral', -, href, hnearest⟩ :=
      h path numeral (renamed.free path numeral hfree) (by omega)
    obtain rfl : numeral' = numeral := href.unique hfree.1
    exact hnearest.not_freeAt hfree
  · obtain ⟨numeral, href⟩ := renamed.refersAt hat
    rcases ParseTree.nearestBinder_or_freeAt href with ⟨outer, hnearest⟩ | hfree
    · obtain ⟨binder, body, houter, hvar⟩ := renamed.bound path numeral outer href hnearest
      obtain rfl : id = binder := by simpa [hat] using hvar
      exact ⟨outer, body, numeral, houter, href, hnearest⟩
    · obtain rfl : id = numeral := by simpa [hat] using renamed.free path numeral hfree
      exact absurd (h path id hfree) (by omega)

/-- One variable that a function binds and one that is free. -/
theorem free_variables_apart_iff_one_free :
    ∃ tree program, ParseTree.ofText "B$ L! v! v\"" = .ok tree ∧
      Program.ofText "B$ L! v! v\"" = .ok program ∧
      program.expr = .app (.lam (-1) (.var (-1))) (.var 1) ∧
      (tree.FreeApart program.expr ↔ tree.FreeNumeralsSmall) ∧
      (tree.NegativeBound program.expr ↔ tree.FreeNumeralsSmall) := by
  have parsed : ParseTree.ofText "B$ L! v! v\"" =
      .ok (.node .binary (.ofLiteral "B$" 0)
        [.node .lambda (.ofLiteral "L!" 1) [.node .variable (.ofLiteral "v!" 2) []],
          .node .variable (.ofLiteral "v\"" 3) []]) := by
    cbv
  have read : Program.ofText "B$ L! v! v\"" =
      .ok ⟨.app (.lam (-1) (.var (-1))) (.var 1), 1⟩ := by
    cbv
  exact ⟨_, _, parsed, read, rfl, (free_variables_apart_iff parsed read).2⟩

/-- A function of the numeral `0` around a variable whose numeral wraps to `-1`, the binder of that
function: the variable is free in the source and bound in the expression. -/
theorem wrapped_variable_captured :
    ∃ tree program, ParseTree.ofText "L! vA33?&-jqQh" = .ok tree ∧
      Program.ofText "L! vA33?&-jqQh" = .ok program ∧ program.expr = .lam (-1) (.var (-1)) ∧
      tree.FreeAt [0] (-1) ∧ ¬ tree.FreeApart program.expr ∧
      ¬ tree.NegativeBound program.expr := by
  let variableNode : ParseTree := .node .variable (.ofLiteral "vA33?&-jqQh" 1) []
  let tree : ParseTree := .node .lambda (.ofLiteral "L!" 0) [variableNode]
  have parsed : ParseTree.ofText "L! vA33?&-jqQh" = .ok tree := by cbv
  have read : Program.ofText "L! vA33?&-jqQh" = .ok ⟨.lam (-1) (.var (-1)), 1⟩ := by cbv
  have zero : Wire.decodeInteger "!" = .ok 0 := by cbv
  have minusOne : Wire.decodeInteger "A33?&-jqQh" = .ok (-1) := by cbv
  have free : tree.FreeAt [0] (-1) := by
    have hchild : tree.children[0]? = some variableNode := rfl
    refine (ParseTree.freeAt_cons hchild).2 ⟨?_, ?_⟩
    · exact ParseTree.freeAt_nil.2 ⟨rfl, minusOne⟩
    · rintro ⟨-, h⟩
      exact absurd (Except.ok.inj (zero.symm.trans h)) (by decide)
  refine ⟨tree, _, parsed, read, rfl, free, fun h => ?_, fun h => ?_⟩
  · obtain ⟨id, hat, hid, -⟩ := h [0] (-1) free
    cases hat
    exact absurd hid (by decide)
  · obtain ⟨outer, body, numeral, -, href, hnearest⟩ := h [0] (-1) rfl (by decide)
    obtain rfl : numeral = -1 := href.unique free.1
    exact hnearest.not_freeAt free

end Lambda94
