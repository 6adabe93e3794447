import Lambda94.Proofs.Versions
import Mathlib.Data.Nat.Fib.Basic

/-!
# Search trees stay balanced

A tree that was built by insertions records its true height at every node, and the heights of the
two subtrees of a node differ by at most one (`Avl.Balanced`).  An insertion makes a subtree at most
one higher, so that for a moment the subtrees of a node may differ by two; turning the node makes up
for that (`settles_balance`), and the tree as a whole is at most one higher again
(`settles_insert`).

A balanced tree has many keys for its height: `fib_le_length_keys`.
-/

namespace Lambda94

namespace Avl

variable {α : Type}

/-- The nodes on a longest way down a tree. -/
def depth : Avl α → Nat
  | .empty => 0
  | .node _ _ _ left right => max left.depth right.depth + 1

/-- Every node records its height, and the heights of its two subtrees differ by at most one. -/
def Balanced : Avl α → Prop
  | .empty => True
  | .node _ _ height left right =>
    height = max left.depth right.depth + 1 ∧
      left.depth ≤ right.depth + 1 ∧ right.depth ≤ left.depth + 1 ∧
      left.Balanced ∧ right.Balanced

section

variable {tree left right : Avl α} {key : Int} {value : α}

theorem balanced_empty : (empty : Avl α).Balanced := trivial

theorem Balanced.height_eq (h : tree.Balanced) : tree.height = tree.depth := by
  cases tree with
  | empty => rfl
  | node key value height left right => exact h.1

theorem exists_node_of_depth_pos (tree : Avl α) (h : 0 < tree.depth) :
    ∃ key value height left right, tree = node key value height left right := by
  cases tree with
  | empty => exact absurd h (lt_irrefl 0)
  | node key value height left right => exact ⟨key, value, height, left, right, rfl⟩

theorem depth_mk (key : Int) (value : α) (left right : Avl α) :
    (mk key value left right).depth = max left.depth right.depth + 1 := rfl

/-- Two balanced trees whose heights differ by at most one make a balanced tree. -/
theorem Balanced.mk (hl : left.Balanced) (hr : right.Balanced)
    (hlr : left.depth ≤ right.depth + 1) (hrl : right.depth ≤ left.depth + 1) :
    (mk key value left right).Balanced :=
  ⟨by rw [hl.height_eq, hr.height_eq, Nat.add_comm], hlr, hrl, hl, hr⟩

/-! ### Left and right exchanged -/

/-- A tree with left and right exchanged everywhere. -/
def mirror : Avl α → Avl α
  | .empty => .empty
  | .node key value height left right => .node key value height right.mirror left.mirror

@[simp] theorem mirror_mirror (tree : Avl α) : tree.mirror.mirror = tree := by
  induction tree with
  | empty => rfl
  | node key value height left right ihl ihr => simp [mirror, ihl, ihr]

@[simp] theorem height_mirror (tree : Avl α) : tree.mirror.height = tree.height := by
  cases tree <;> rfl

@[simp] theorem depth_mirror (tree : Avl α) : tree.mirror.depth = tree.depth := by
  induction tree with
  | empty => rfl
  | node key value height left right ihl ihr => simp [mirror, depth, ihl, ihr, max_comm]

theorem Balanced.mirror (h : tree.Balanced) : tree.mirror.Balanced := by
  induction tree with
  | empty => trivial
  | node key value height left right ihl ihr =>
    obtain ⟨hheight, hlr, hrl, hl, hr⟩ := h
    simp only [Avl.mirror, Balanced, depth_mirror]
    exact ⟨by rw [hheight, max_comm], hrl, hlr, ihr hr, ihl hl⟩

@[simp] theorem mirror_mk (key : Int) (value : α) (left right : Avl α) :
    (Avl.mk key value left right).mirror = Avl.mk key value right.mirror left.mirror := by
  simp [Avl.mk, Avl.mirror, max_comm]

theorem mirror_rotateRight (tree : Avl α) : tree.rotateRight.mirror = tree.mirror.rotateLeft := by
  cases tree with
  | empty => rfl
  | node key value height left right => cases left <;> simp [rotateRight, rotateLeft, Avl.mirror]

theorem mirror_rotateLeft (tree : Avl α) : tree.rotateLeft.mirror = tree.mirror.rotateRight := by
  rw [← mirror_mirror tree.mirror.rotateRight, mirror_rotateRight, mirror_mirror]

theorem mirror_leanLeft (tree : Avl α) : tree.leanLeft.mirror = tree.mirror.leanRight := by
  cases tree with
  | empty => rfl
  | node key value height left right =>
    simp only [leanLeft, leanRight, Avl.mirror, height_mirror]
    split_ifs
    · rfl
    · exact mirror_rotateLeft _

/-! ### Turning a node -/

/-- A balanced tree in the place of a tree of height `n`: it is as high, or one higher. -/
def Settles (n : Nat) (tree : Avl α) : Prop :=
  tree.Balanced ∧ n ≤ tree.depth ∧ tree.depth ≤ n + 1

theorem Settles.mirror {n : Nat} (h : Settles n tree) : Settles n tree.mirror := by
  obtain ⟨balanced, lower, upper⟩ := h
  exact ⟨balanced.mirror, by rwa [depth_mirror], by rwa [depth_mirror]⟩

/-- A left subtree that is two higher comes to the top, after its own right subtree came to the top
of it if that is the higher one. -/
theorem settles_rotateRight (key : Int) (value : α) (hl : left.Balanced) (hr : right.Balanced)
    (high : left.depth = right.depth + 2) :
    Settles left.depth (Avl.mk key value (leanLeft left) right).rotateRight := by
  obtain ⟨k, v, n, outer, inner, rfl⟩ := exists_node_of_depth_pos left (by omega)
  obtain ⟨-, hoi, hio, ho, hi⟩ := hl
  rw [Settles, leanLeft, ho.height_eq, hi.height_eq]
  simp only [depth] at high ⊢
  split_ifs with hlean
  · have turned : (Avl.mk key value (node k v n outer inner) right).rotateRight =
        Avl.mk k v outer (Avl.mk key value inner right) := rfl
    have below : (Avl.mk key value inner right).Balanced := hi.mk hr (by omega) (by omega)
    rw [turned, depth_mk, depth_mk]
    exact ⟨ho.mk below (by rw [depth_mk]; omega) (by rw [depth_mk]; omega), by omega, by omega⟩
  · obtain ⟨k', v', n', a, b, rfl⟩ := exists_node_of_depth_pos inner (by omega)
    obtain ⟨-, hab, hba, ha, hb⟩ := hi
    simp only [depth] at high hlean hoi hio ⊢
    have turned : (Avl.mk key value (node k v n outer (node k' v' n' a b)).rotateLeft
        right).rotateRight = Avl.mk k' v' (Avl.mk k v outer a) (Avl.mk key value b right) := rfl
    have first : (Avl.mk k v outer a).Balanced := ho.mk ha (by omega) (by omega)
    have second : (Avl.mk key value b right).Balanced := hb.mk hr (by omega) (by omega)
    rw [turned, depth_mk, depth_mk, depth_mk]
    exact ⟨first.mk second (by simp only [depth_mk]; omega) (by simp only [depth_mk]; omega),
      by omega, by omega⟩

theorem settles_rotateLeft (key : Int) (value : α) (hl : left.Balanced) (hr : right.Balanced)
    (high : right.depth = left.depth + 2) :
    Settles right.depth (Avl.mk key value left (leanRight right)).rotateLeft := by
  have mirrored := settles_rotateRight key value hr.mirror hl.mirror
    (by rw [depth_mirror, depth_mirror, high])
  have h := mirrored.mirror
  rwa [mirror_rotateRight, mirror_mk, mirror_leanLeft, mirror_mirror, mirror_mirror,
    depth_mirror] at h

/-- Two subtrees, of which one may have grown since they were those of a balanced node of height
`n`. -/
theorem settles_balance {n : Nat} (hl : left.Balanced) (hr : right.Balanced)
    (lower : max left.depth right.depth ≤ n) (upper : n ≤ max left.depth right.depth + 1)
    (near : n ≤ min left.depth right.depth + 2) :
    Settles n (balance key value left right) := by
  rw [balance, hl.height_eq, hr.height_eq]
  split_ifs with leftHigh rightHigh
  · have high : left.depth = right.depth + 2 := by omega
    obtain rfl : n = left.depth := by omega
    exact settles_rotateRight key value hl hr high
  · have high : right.depth = left.depth + 2 := by omega
    obtain rfl : n = right.depth := by omega
    exact settles_rotateLeft key value hl hr high
  · exact ⟨hl.mk hr (by omega) (by omega), upper, Nat.succ_le_succ lower⟩

/-! ### Inserting -/

/-- An insertion keeps a tree balanced, and makes it at most one higher. -/
theorem settles_insert (h : tree.Balanced) (key : Int) (value : α) :
    Settles tree.depth (tree.insert key value) := by
  induction tree with
  | empty =>
    exact ⟨balanced_empty.mk balanced_empty (Nat.zero_le _) (Nat.zero_le _), Nat.zero_le _, le_rfl⟩
  | node key' value' height left right ihl ihr =>
    obtain ⟨-, hlr, hrl, hl, hr⟩ := h
    rw [insert, depth]
    split_ifs with heq hlt
    · exact ⟨hl.mk hr hlr hrl, le_rfl, Nat.le_succ _⟩
    · obtain ⟨hl', lower, upper⟩ := ihl hl
      exact settles_balance hl' hr (by omega) (by omega) (by omega)
    · obtain ⟨hr', lower, upper⟩ := ihr hr
      exact settles_balance hl hr' (by omega) (by omega) (by omega)

theorem balanced_of_mem_history {insertions : List (Nat × Int × α)}
    (mem : tree ∈ history insertions) : tree.Balanced :=
  forall_mem_versions balanced_empty (fun _ b h => (settles_insert h b.1 b.2).1) insertions tree mem

/-! ### Counting keys -/

theorem length_keys_node (key : Int) (value : α) (height : Nat) (left right : Avl α) :
    (node key value height left right).keys.length = left.keys.length + right.keys.length + 1 := by
  simp only [keys, toList, List.length_map, List.length_append, List.length_cons]
  omega

/-- A balanced tree of height `h` has at least `fib (h + 2) - 1` keys. -/
theorem fib_le_length_keys (h : tree.Balanced) :
    Nat.fib (tree.depth + 2) ≤ tree.keys.length + 1 := by
  induction tree with
  | empty => exact le_rfl
  | node key value height left right ihl ihr =>
    obtain ⟨-, hlr, hrl, hl, hr⟩ := h
    have hleft := ihl hl
    have hright := ihr hr
    rw [depth, length_keys_node]
    -- the lower subtree is at most one lower than the higher one
    rcases le_total right.depth left.depth with hle | hle
    · have lower : Nat.fib (left.depth + 1) ≤ Nat.fib (right.depth + 2) := Nat.fib_mono (by omega)
      have split : Nat.fib (left.depth + 1 + 2) =
        Nat.fib (left.depth + 1) + Nat.fib (left.depth + 2) := Nat.fib_add_two
      rw [max_eq_left hle, split]
      omega
    · have lower : Nat.fib (right.depth + 1) ≤ Nat.fib (left.depth + 2) := Nat.fib_mono (by omega)
      have split : Nat.fib (right.depth + 1 + 2) =
        Nat.fib (right.depth + 1) + Nat.fib (right.depth + 2) := Nat.fib_add_two
      rw [max_eq_right hle, split]
      omega

end

/-! ### Main result -/

/-- A tree that was made by insertions, each of them from any earlier tree and with a new key or an
old one, has its keys in strictly increasing order; at every node the recorded height is the true
one and the heights of the two subtrees differ by at most one; so a tree of height `h` has at least
`fib (h + 2) - 1` keys. -/
theorem invariant_of_mem_history {insertions : List (Nat × Int × α)} {tree : Avl α}
    (mem : tree ∈ history insertions) :
    tree.keys.Pairwise (· < ·) ∧ tree.Balanced ∧
      Nat.fib (tree.depth + 2) - 1 ≤ tree.keys.length := by
  have balanced := balanced_of_mem_history mem
  have increasing := List.pairwise_map.2 (ordered_of_mem_history mem)
  exact ⟨increasing, balanced, Nat.sub_le_of_le_add (fib_le_length_keys balanced)⟩

/-- The third insertion makes two turns; the fourth goes on from the tree in front of it. -/
theorem invariant_of_mem_history_two_turns :
    let insertions : List (Nat × Int × Bool) :=
      [(0, 3, true), (1, 1, true), (2, 2, true), (2, 7, true), (3, 2, false)]
    let turned : Avl Bool := mk 2 false (mk 1 true .empty .empty) (mk 3 true .empty .empty)
    turned ∈ history insertions ∧ turned.keys = [1, 2, 3] ∧ turned.keys.Pairwise (· < ·) ∧
      turned.Balanced ∧ Nat.fib (turned.depth + 2) - 1 ≤ turned.keys.length := by
  intro insertions turned
  have mem : turned ∈ history insertions := by decide
  exact ⟨mem, rfl, invariant_of_mem_history mem⟩

end Avl

end Lambda94
