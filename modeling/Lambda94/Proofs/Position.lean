import Lambda94.Rename
import Mathlib.Data.List.Nodup

/-!
# Positions and binding

A node of a parse tree or of an expression is found by a path of child indices from the root.  The
paths say where a numeral of the source is bound: a variable belongs to the nearest function above
it that was written with the same numeral (`ParseTree.NearestBinder`), and is free if there is no
such function (`ParseTree.FreeAt`); `ParseTree.nearestBinder_or_freeAt` says that these are the only
two cases.
-/

namespace Lambda94

/-- The children to go through, from the root on. -/
abbrev Path := List Nat

/-- The node at `outer` is properly above the node at `path`. -/
def Above (outer path : Path) : Prop := outer <+: path ∧ outer ≠ path

theorem not_above_nil (outer : Path) : ¬ Above outer [] := fun h => h.2 (List.prefix_nil.1 h.1)

theorem above_nil_cons (i : Nat) (path : Path) : Above [] (i :: path) :=
  ⟨List.nil_prefix, (List.cons_ne_nil _ _).symm⟩

theorem above_cons_cons_iff {i j : Nat} {outer path : Path} :
    Above (j :: outer) (i :: path) ↔ j = i ∧ Above outer path := by
  rw [Above, Above, List.cons_prefix_cons]
  constructor
  · rintro ⟨⟨rfl, hprefix⟩, hne⟩
    exact ⟨rfl, hprefix, fun h => hne (h ▸ rfl)⟩
  · rintro ⟨rfl, hprefix, hne⟩
    exact ⟨⟨rfl, hprefix⟩, fun h => hne (List.cons.inj h).2⟩

/-! ### Nodes of expressions -/

namespace Expr

/-- The expressions directly below an expression. -/
def children : Expr → List Expr
  | .lit _ | .var _ => []
  | .unary _ operand => [operand]
  | .binary _ left right => [left, right]
  | .cond condition thenBranch elseBranch => [condition, thenBranch, elseBranch]
  | .lam _ body => [body]

/-- The expression at a path. -/
def at? : Expr → Path → Option Expr
  | expr, [] => some expr
  | expr, i :: path => expr.children[i]?.bind fun child => child.at? path

/-- The binders of the functions of an expression, in the order of the text. -/
def binders : Expr → List Int
  | .lit _ | .var _ => []
  | .unary _ operand => operand.binders
  | .binary _ left right => left.binders ++ right.binders
  | .cond condition thenBranch elseBranch =>
    condition.binders ++ thenBranch.binders ++ elseBranch.binders
  | .lam binder body => binder :: body.binders

@[simp] theorem at?_nil (expr : Expr) : expr.at? [] = some expr := rfl

theorem at?_cons {expr child : Expr} {i : Nat} (h : expr.children[i]? = some child) (path : Path) :
    expr.at? (i :: path) = child.at? path := by
  rw [at?, h, Option.bind_some]

theorem exists_child_of_at?_cons {expr node : Expr} {i : Nat} {path : Path}
    (h : expr.at? (i :: path) = some node) :
    ∃ child, expr.children[i]? = some child ∧ child.at? path = some node :=
  Option.bind_eq_some_iff.1 h

/-- The binders of an expression are those of its children, after its own. -/
theorem flatMap_binders_sublist (expr : Expr) :
    (expr.children.flatMap binders).Sublist expr.binders := by
  cases expr with
  | lam binder body => simp [children, binders]
  | _ => simp [children, binders]

theorem mem_binders_of_at? {expr body : Expr} {path : Path} {id : Int}
    (h : expr.at? path = some (.lam id body)) : id ∈ expr.binders := by
  induction path generalizing expr with
  | nil =>
    obtain rfl := Option.some.inj h
    exact List.mem_cons_self
  | cons i path ih =>
    obtain ⟨child, hchild, hat⟩ := exists_child_of_at?_cons h
    refine (flatMap_binders_sublist expr).subset ?_
    exact List.mem_flatMap.2 ⟨child, List.mem_of_getElem? hchild, ih hat⟩

/-- If the binders are distinct, no function below another one has the same binder. -/
theorem at?_cons_ne_of_nodup {body body' : Expr} {id : Int} {i : Nat} {path : Path}
    (distinct : (lam id body).binders.Nodup) :
    (lam id body).at? (i :: path) ≠ some (.lam id body') := by
  intro h
  obtain ⟨child, hchild, hat⟩ := exists_child_of_at?_cons h
  obtain rfl := List.mem_singleton.1 (List.mem_of_getElem? hchild)
  exact (List.nodup_cons.1 distinct).1 (mem_binders_of_at? hat)

/-- If the binders are distinct, a binder belongs to one function. -/
theorem path_eq_of_nodup {expr body body' : Expr} {path path' : Path} {id : Int}
    (distinct : expr.binders.Nodup) (h : expr.at? path = some (.lam id body))
    (h' : expr.at? path' = some (.lam id body')) : path = path' := by
  induction path generalizing expr path' with
  | nil =>
    cases path' with
    | nil => rfl
    | cons j path' =>
      obtain rfl := Option.some.inj h
      exact absurd h' (at?_cons_ne_of_nodup distinct)
  | cons i path ih =>
    cases path' with
    | nil =>
      obtain rfl := Option.some.inj h'
      exact absurd h (at?_cons_ne_of_nodup distinct)
    | cons j path' =>
      obtain ⟨child, hchild, hat⟩ := exists_child_of_at?_cons h
      obtain ⟨child', hchild', hat'⟩ := exists_child_of_at?_cons h'
      obtain ⟨below, apart⟩ :=
        List.nodup_flatMap.1 (distinct.sublist (flatMap_binders_sublist expr))
      obtain rfl : i = j := by
        obtain ⟨hi, rfl⟩ := List.getElem?_eq_some_iff.1 hchild
        obtain ⟨hj, rfl⟩ := List.getElem?_eq_some_iff.1 hchild'
        have hmem := mem_binders_of_at? hat
        have hmem' := mem_binders_of_at? hat'
        rcases Nat.lt_trichotomy i j with lt | rfl | gt
        · exact absurd hmem' (List.pairwise_iff_getElem.1 apart i j hi hj lt hmem)
        · rfl
        · exact absurd hmem (List.pairwise_iff_getElem.1 apart j i hj hi gt hmem')
      obtain rfl : child = child' := Option.some.inj (hchild.symm.trans hchild')
      rw [ih (below child (List.mem_of_getElem? hchild)) hat hat']

end Expr

/-! ### Nodes of parse trees -/

namespace ParseTree

/-- The tree at a path. -/
def at? : ParseTree → Path → Option ParseTree
  | tree, [] => some tree
  | tree, i :: path => tree.children[i]?.bind fun child => child.at? path

@[simp] theorem at?_nil (tree : ParseTree) : tree.at? [] = some tree := rfl

theorem at?_cons {tree child : ParseTree} {i : Nat} (h : tree.children[i]? = some child)
    (path : Path) : tree.at? (i :: path) = child.at? path := by
  rw [at?, h, Option.bind_some]

theorem exists_child_of_at?_cons {tree node : ParseTree} {i : Nat} {path : Path}
    (h : tree.at? (i :: path) = some node) :
    ∃ child, tree.children[i]? = some child ∧ child.at? path = some node :=
  Option.bind_eq_some_iff.1 h

/-- A function that was written with `numeral`. -/
def Binds (tree : ParseTree) (numeral : Int) : Prop :=
  tree.rule = .lambda ∧ Wire.decodeInteger tree.token.body = .ok numeral

/-- A variable that was written with `numeral`. -/
def Refers (tree : ParseTree) (numeral : Int) : Prop :=
  tree.rule = .variable ∧ Wire.decodeInteger tree.token.body = .ok numeral

/-- The node at `path` is a function that was written with `numeral`. -/
def BindsAt (tree : ParseTree) (path : Path) (numeral : Int) : Prop :=
  ∃ node, tree.at? path = some node ∧ node.Binds numeral

/-- The node at `path` is a variable that was written with `numeral`. -/
def RefersAt (tree : ParseTree) (path : Path) (numeral : Int) : Prop :=
  ∃ node, tree.at? path = some node ∧ node.Refers numeral

/-- Of the functions above `path` that were written with `numeral`, the one at `outer` is the
nearest. -/
structure NearestBinder (tree : ParseTree) (path : Path) (numeral : Int) (outer : Path) : Prop where
  above : Above outer path
  binds : tree.BindsAt outer numeral
  nearest : ∀ inner, Above inner path → tree.BindsAt inner numeral → inner <+: outer

/-- The node at `path` is a variable that was written with `numeral`, and no function above it was
written with that numeral. -/
def FreeAt (tree : ParseTree) (path : Path) (numeral : Int) : Prop :=
  tree.RefersAt path numeral ∧ ∀ outer, Above outer path → ¬ tree.BindsAt outer numeral

/-- Every variable is inside a function that was written with the same numeral. -/
def Closed (tree : ParseTree) : Prop := ∀ path numeral, ¬ tree.FreeAt path numeral

@[simp] theorem bindsAt_nil {tree : ParseTree} {numeral : Int} :
    tree.BindsAt [] numeral ↔ tree.Binds numeral := by
  simp [BindsAt]

@[simp] theorem refersAt_nil {tree : ParseTree} {numeral : Int} :
    tree.RefersAt [] numeral ↔ tree.Refers numeral := by
  simp [RefersAt]

theorem freeAt_nil {tree : ParseTree} {numeral : Int} :
    tree.FreeAt [] numeral ↔ tree.Refers numeral := by
  rw [FreeAt, refersAt_nil]
  exact ⟨And.left, fun h => ⟨h, fun outer hab => absurd hab (not_above_nil outer)⟩⟩

theorem RefersAt.unique {tree : ParseTree} {path : Path} {numeral numeral' : Int}
    (h : tree.RefersAt path numeral) (h' : tree.RefersAt path numeral') : numeral = numeral' := by
  obtain ⟨node, hat, -, hnumeral⟩ := h
  obtain ⟨node', hat', -, hnumeral'⟩ := h'
  obtain rfl : node = node' := Option.some.inj (hat.symm.trans hat')
  exact Except.ok.inj (hnumeral.symm.trans hnumeral')

/-- A variable that some function binds is not free. -/
theorem NearestBinder.not_freeAt {tree : ParseTree} {path outer : Path} {numeral : Int}
    (h : tree.NearestBinder path numeral outer) : ¬ tree.FreeAt path numeral :=
  fun hfree => hfree.2 outer h.above h.binds

section Child

variable {tree child : ParseTree} {i : Nat} {path outer : Path} {numeral : Int}

theorem bindsAt_cons (hchild : tree.children[i]? = some child) :
    tree.BindsAt (i :: path) numeral ↔ child.BindsAt path numeral := by
  rw [BindsAt, BindsAt, at?_cons hchild]

theorem refersAt_cons (hchild : tree.children[i]? = some child) :
    tree.RefersAt (i :: path) numeral ↔ child.RefersAt path numeral := by
  rw [RefersAt, RefersAt, at?_cons hchild]

/-- What is above a node of a child is the root, or above the node in the child. -/
theorem forall_above_cons_iff (hchild : tree.children[i]? = some child) :
    (∀ outer, Above outer (i :: path) → ¬ tree.BindsAt outer numeral) ↔
      ¬ tree.Binds numeral ∧ ∀ outer, Above outer path → ¬ child.BindsAt outer numeral := by
  constructor
  · intro h
    refine ⟨fun hroot => h [] (above_nil_cons i path) (bindsAt_nil.2 hroot), fun outer hab => ?_⟩
    rw [← bindsAt_cons hchild]
    exact h (i :: outer) (above_cons_cons_iff.2 ⟨rfl, hab⟩)
  · rintro ⟨hroot, hbelow⟩ (_ | ⟨j, outer⟩) hab hbinds
    · exact hroot (bindsAt_nil.1 hbinds)
    · obtain ⟨rfl, hab'⟩ := above_cons_cons_iff.1 hab
      exact hbelow outer hab' ((bindsAt_cons hchild).1 hbinds)

theorem freeAt_cons (hchild : tree.children[i]? = some child) :
    tree.FreeAt (i :: path) numeral ↔ child.FreeAt path numeral ∧ ¬ tree.Binds numeral := by
  rw [FreeAt, FreeAt, refersAt_cons hchild, forall_above_cons_iff hchild]
  tauto

theorem nearestBinder_cons_nil (hchild : tree.children[i]? = some child) :
    tree.NearestBinder (i :: path) numeral [] ↔
      tree.Binds numeral ∧ ∀ inner, Above inner path → ¬ child.BindsAt inner numeral := by
  constructor
  · intro h
    refine ⟨bindsAt_nil.1 h.binds, fun inner hab hbinds => ?_⟩
    have hprefix := h.nearest (i :: inner) (above_cons_cons_iff.2 ⟨rfl, hab⟩)
      ((bindsAt_cons hchild).2 hbinds)
    exact List.cons_ne_nil i inner (List.prefix_nil.1 hprefix)
  · rintro ⟨hroot, hbelow⟩
    refine ⟨above_nil_cons i path, bindsAt_nil.2 hroot, ?_⟩
    rintro (_ | ⟨j, inner⟩) hab hbinds
    · exact List.prefix_rfl
    · obtain ⟨rfl, hab'⟩ := above_cons_cons_iff.1 hab
      exact absurd ((bindsAt_cons hchild).1 hbinds) (hbelow inner hab')

theorem nearestBinder_cons_cons (hchild : tree.children[i]? = some child) :
    tree.NearestBinder (i :: path) numeral (i :: outer) ↔
      child.NearestBinder path numeral outer := by
  constructor
  · rintro ⟨habove, hbinds, hnearest⟩
    refine ⟨(above_cons_cons_iff.1 habove).2, (bindsAt_cons hchild).1 hbinds,
      fun inner hab hinner => ?_⟩
    have hprefix := hnearest (i :: inner) (above_cons_cons_iff.2 ⟨rfl, hab⟩)
      ((bindsAt_cons hchild).2 hinner)
    exact (List.cons_prefix_cons.1 hprefix).2
  · rintro ⟨habove, hbinds, hnearest⟩
    refine ⟨above_cons_cons_iff.2 ⟨rfl, habove⟩, (bindsAt_cons hchild).2 hbinds, ?_⟩
    rintro (_ | ⟨j, inner⟩) hab hinner
    · exact List.nil_prefix
    · obtain ⟨rfl, hab'⟩ := above_cons_cons_iff.1 hab
      exact List.cons_prefix_cons.2 ⟨rfl, hnearest inner hab' ((bindsAt_cons hchild).1 hinner)⟩

end Child

/-- A variable is bound by the nearest function of its numeral, or free. -/
theorem nearestBinder_or_freeAt {tree : ParseTree} {path : Path} {numeral : Int}
    (h : tree.RefersAt path numeral) :
    (∃ outer, tree.NearestBinder path numeral outer) ∨ tree.FreeAt path numeral := by
  induction path generalizing tree with
  | nil => exact .inr ⟨h, fun outer hab => absurd hab (not_above_nil outer)⟩
  | cons i path ih =>
    obtain ⟨node, hat, href⟩ := h
    obtain ⟨child, hchild, hat⟩ := exists_child_of_at?_cons hat
    rcases ih ⟨node, hat, href⟩ with ⟨outer, hnearest⟩ | hfree
    · exact .inl ⟨i :: outer, (nearestBinder_cons_cons hchild).2 hnearest⟩
    · by_cases hroot : tree.Binds numeral
      · exact .inl ⟨[], (nearestBinder_cons_nil hchild).2 ⟨hroot, hfree.2⟩⟩
      · exact .inr ((freeAt_cons hchild).2 ⟨hfree, hroot⟩)

end ParseTree

end Lambda94
