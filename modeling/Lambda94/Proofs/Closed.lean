import Lambda94.Proofs.Renaming
import Lambda94.Proofs.Substitution

/-!
# Closed programs

A text is closed if each of its variables is inside a function of the same numeral.  Renaming keeps
that: the expression of a closed text has no free variables, `ParseTree.Renamed.closed`.  A check on
the tree shows that a text is closed, `ParseTree.closed_of_closedUnder`.
-/

namespace Lambda94

/-! ### Free variables by position -/

namespace Expr

/-- The node at `path` is a variable, and no function above it binds it. -/
def FreeAt (expr : Expr) (path : Path) (id : Int) : Prop :=
  expr.at? path = some (.var id) ∧
    ∀ outer body, Above outer path → expr.at? outer ≠ some (.lam id body)

theorem FreeAt.cons {expr child : Expr} {i : Nat} {path : Path} {id : Int}
    (hchild : expr.children[i]? = some child) (hroot : ∀ body, expr ≠ .lam id body)
    (h : child.FreeAt path id) : expr.FreeAt (i :: path) id := by
  refine ⟨by rw [at?_cons hchild, h.1], ?_⟩
  rintro (_ | ⟨j, outer⟩) body hab hat
  · exact hroot body (Option.some.inj hat)
  · obtain ⟨rfl, hab'⟩ := above_cons_cons_iff.1 hab
    rw [at?_cons hchild] at hat
    exact h.2 outer body hab' hat

theorem exists_freeAt_of_mem_freeVars {expr : Expr} {id : Int} (h : id ∈ expr.freeVars) :
    ∃ path, expr.FreeAt path id := by
  induction expr with
  | lit value => exact absurd h List.not_mem_nil
  | unary op operand ih =>
    obtain ⟨path, hfree⟩ := ih h
    exact ⟨0 :: path, hfree.cons rfl (by simp)⟩
  | binary op left right ihl ihr =>
    rcases List.mem_append.1 h with h | h
    · obtain ⟨path, hfree⟩ := ihl h
      exact ⟨0 :: path, hfree.cons rfl (by simp)⟩
    · obtain ⟨path, hfree⟩ := ihr h
      exact ⟨1 :: path, hfree.cons rfl (by simp)⟩
  | cond c t e ihc iht ihe =>
    rw [freeVars, List.mem_append, List.mem_append] at h
    rcases h with (h | h) | h
    · obtain ⟨path, hfree⟩ := ihc h
      exact ⟨0 :: path, hfree.cons rfl (by simp)⟩
    · obtain ⟨path, hfree⟩ := iht h
      exact ⟨1 :: path, hfree.cons rfl (by simp)⟩
    · obtain ⟨path, hfree⟩ := ihe h
      exact ⟨2 :: path, hfree.cons rfl (by simp)⟩
  | lam binder body ih =>
    obtain ⟨hbody, hne⟩ := mem_freeVars_lam.1 h
    obtain ⟨path, hfree⟩ := ih hbody
    refine ⟨0 :: path, hfree.cons rfl fun body' heq => hne ?_⟩
    cases heq
    rfl
  | var id' =>
    obtain rfl := List.mem_singleton.1 h
    exact ⟨[], rfl, fun outer body hab => absurd hab (not_above_nil outer)⟩

end Expr

namespace ParseTree

/-- The expression of a closed tree is closed. -/
theorem Renamed.closed {resolve : Int → Int} {tree : ParseTree} {expr : Expr}
    (h : tree.Renamed resolve expr) (closed : tree.Closed) : expr.Closed := by
  refine Expr.closed_iff.2 fun id hid => ?_
  obtain ⟨path, hat, hnone⟩ := Expr.exists_freeAt_of_mem_freeVars hid
  obtain ⟨numeral, href⟩ := h.refersAt hat
  rcases nearestBinder_or_freeAt href with ⟨outer, hnearest⟩ | hfree
  · obtain ⟨binder, body, houter, hvar⟩ := h.bound path numeral outer href hnearest
    obtain rfl : id = binder := by simpa [hat] using hvar
    exact hnone outer body hnearest.above houter
  · exact closed path numeral hfree

/-! ### Checking closedness -/

mutual

/-- A check that every variable is inside a function of the same numeral, or has a numeral of the
list. -/
def closedUnder (numerals : List Int) : ParseTree → Bool
  | .node rule token children =>
    match rule, Wire.decodeInteger token.body with
    | .variable, .ok numeral => decide (numeral ∈ numerals) && allClosedUnder numerals children
    | .lambda, .ok numeral => allClosedUnder (numeral :: numerals) children
    | _, _ => allClosedUnder numerals children

/-- The check on each of the trees. -/
def allClosedUnder (numerals : List Int) : List ParseTree → Bool
  | [] => true
  | tree :: trees => tree.closedUnder numerals && allClosedUnder numerals trees

end

theorem allClosedUnder_iff {numerals : List Int} {trees : List ParseTree} :
    allClosedUnder numerals trees = true ↔ ∀ tree ∈ trees, tree.closedUnder numerals = true := by
  induction trees with
  | nil => simp [allClosedUnder]
  | cons tree trees ih => rw [allClosedUnder, Bool.and_eq_true, ih, List.forall_mem_cons]

theorem mem_of_closedUnder_of_refers {numerals : List Int} {tree : ParseTree} {numeral : Int}
    (h : tree.closedUnder numerals = true) (hrefers : tree.Refers numeral) :
    numeral ∈ numerals := by
  obtain ⟨rule, token, children⟩ := tree
  obtain ⟨rfl, hnumeral⟩ : rule = .variable ∧ Wire.decodeInteger token.body = .ok numeral := hrefers
  unfold closedUnder at h
  rw [hnumeral] at h
  exact of_decide_eq_true (Bool.and_eq_true_iff.1 h).1

theorem closedUnder_child {numerals : List Int} {tree child : ParseTree}
    (h : tree.closedUnder numerals = true) (hchild : child ∈ tree.children) :
    child.closedUnder numerals = true ∨
      ∃ numeral, tree.Binds numeral ∧ child.closedUnder (numeral :: numerals) = true := by
  obtain ⟨rule, token, children⟩ := tree
  unfold closedUnder at h
  split at h
  · exact .inl (allClosedUnder_iff.1 (Bool.and_eq_true_iff.1 h).2 child hchild)
  · next numeral hnumeral =>
    exact .inr ⟨numeral, ⟨rfl, hnumeral⟩, allClosedUnder_iff.1 h child hchild⟩
  · exact .inl (allClosedUnder_iff.1 h child hchild)

/-- A free variable of a tree that passes the check has a numeral of the list. -/
theorem mem_of_closedUnder {numerals : List Int} {tree : ParseTree} {path : Path} {numeral : Int}
    (h : tree.closedUnder numerals = true) (hfree : tree.FreeAt path numeral) :
    numeral ∈ numerals := by
  induction path generalizing tree numerals with
  | nil => exact mem_of_closedUnder_of_refers h (freeAt_nil.1 hfree)
  | cons i path ih =>
    obtain ⟨node, hat, -⟩ := hfree.1
    obtain ⟨child, hchild, -⟩ := exists_child_of_at?_cons hat
    obtain ⟨hbelow, hroot⟩ := (freeAt_cons hchild).1 hfree
    rcases closedUnder_child h (List.mem_of_getElem? hchild) with h | ⟨numeral', hbinds, h⟩
    · exact ih h hbelow
    · rcases List.mem_cons.1 (ih h hbelow) with rfl | hmem
      · exact absurd hbinds hroot
      · exact hmem

theorem closed_of_closedUnder {tree : ParseTree} (h : tree.closedUnder [] = true) : tree.Closed :=
  fun _ _ hfree => absurd (mem_of_closedUnder h hfree) List.not_mem_nil

/-- A text is read as a closed tree if the check on what is read says so. -/
theorem exists_closed_of_ofText {text : Text}
    (h : (ofText text).map (closedUnder []) = .ok true) :
    ∃ tree, ofText text = .ok tree ∧ tree.Closed := by
  cases parsed : ofText text with
  | error error =>
    rw [parsed] at h
    cases h
  | ok tree =>
    rw [parsed] at h
    exact ⟨tree, rfl, closed_of_closedUnder (Except.ok.inj h)⟩

end ParseTree

end Lambda94
