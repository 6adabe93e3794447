/-!
# Balanced search trees

Persistent search trees over integer keys that keep the heights of the two subtrees of every node
within one of each other.  Inserting returns a new tree and leaves the old one as it was, so a tree
can stand for the bindings of an inner scope beside those of the outer one.  Balancing moves nodes
but keeps their order: `toList_balance`.
-/

namespace Lambda94

/-- A search tree whose nodes record their own height. -/
inductive Avl (α : Type)
  | empty
  | node (key : Int) (value : α) (height : Nat) (left right : Avl α)
deriving DecidableEq, Repr

namespace Avl

variable {α : Type}

/-- The recorded height of a tree. -/
def height : Avl α → Nat
  | .empty => 0
  | .node _ _ h _ _ => h

/-- The tree with the given root and subtrees. -/
def mk (key : Int) (value : α) (left right : Avl α) : Avl α :=
  .node key value (1 + max left.height right.height) left right

/-- Makes the left child of the root the new root. -/
def rotateRight : Avl α → Avl α
  | .node key value _ (.node key' value' _ left middle) right =>
    mk key' value' left (mk key value middle right)
  | tree => tree

/-- Makes the right child of the root the new root. -/
def rotateLeft : Avl α → Avl α
  | .node key value _ left (.node key' value' _ middle right) =>
    mk key' value' (mk key value left middle) right
  | tree => tree

/-- Turns a tree that leans to the right so that it leans to the left. -/
def leanLeft : Avl α → Avl α
  | .empty => .empty
  | tree@(.node _ _ _ left right) =>
    if right.height ≤ left.height then tree else rotateLeft tree

/-- Turns a tree that leans to the left so that it leans to the right. -/
def leanRight : Avl α → Avl α
  | .empty => .empty
  | tree@(.node _ _ _ left right) =>
    if left.height ≤ right.height then tree else rotateRight tree

/-- The tree with the given root and subtrees, of which one may have grown two higher than the
other. -/
def balance (key : Int) (value : α) (left right : Avl α) : Avl α :=
  if right.height + 1 < left.height then rotateRight (mk key value (leanLeft left) right)
  else if left.height + 1 < right.height then rotateLeft (mk key value left (leanRight right))
  else mk key value left right

/-- Binds a key to a value, in place of an earlier value of that key. -/
def insert (tree : Avl α) (key : Int) (value : α) : Avl α :=
  match tree with
  | .empty => mk key value .empty .empty
  | .node key' value' _ left right =>
    if key = key' then mk key value left right
    else if key < key' then balance key' value' (left.insert key value) right
    else balance key' value' left (right.insert key value)

/-- The value of a key. -/
def find? (tree : Avl α) (key : Int) : Option α :=
  match tree with
  | .empty => none
  | .node key' value _ left right =>
    if key = key' then some value
    else if key < key' then left.find? key
    else right.find? key

/-- The bindings of a tree, in the order of their place in it. -/
def toList : Avl α → List (Int × α)
  | .empty => []
  | .node key value _ left right => left.toList ++ (key, value) :: right.toList

/-! ### Balancing keeps the order -/

@[simp] theorem toList_mk (key : Int) (value : α) (left right : Avl α) :
    (mk key value left right).toList = left.toList ++ (key, value) :: right.toList := rfl

@[simp] theorem toList_rotateRight (tree : Avl α) : tree.rotateRight.toList = tree.toList := by
  unfold rotateRight
  split <;> simp [toList]

@[simp] theorem toList_rotateLeft (tree : Avl α) : tree.rotateLeft.toList = tree.toList := by
  unfold rotateLeft
  split <;> simp [toList]

@[simp] theorem toList_leanLeft (tree : Avl α) : tree.leanLeft.toList = tree.toList := by
  unfold leanLeft
  split
  · rfl
  · split <;> simp

@[simp] theorem toList_leanRight (tree : Avl α) : tree.leanRight.toList = tree.toList := by
  unfold leanRight
  split
  · rfl
  · split <;> simp

@[simp] theorem toList_balance (key : Int) (value : α) (left right : Avl α) :
    (balance key value left right).toList = left.toList ++ (key, value) :: right.toList := by
  unfold balance
  split
  · simp
  · split <;> simp

end Avl

end Lambda94
