import Lambda94.Scope
import Mathlib.Algebra.Order.Ring.Int
import Mathlib.Data.List.Induction
import Mathlib.Order.Basic

/-!
# Search trees as finite maps

A tree that was built by insertions is ordered.  In an ordered tree, inserting is inserting into the
sorted list of the bindings (`toList_insert`) and searching is looking a key up in that list
(`find?_eq_lookup`), so the tree is a finite map in which the latest binding of a key wins
(`find?_insert`).  For a scope, the binder that a numeral refers to is the one of the last binding
of that numeral: `Scope.lookup?_ofBindings`.
-/

namespace Lambda94

namespace Avl

variable {α : Type}

/-! ### Sorted lists of bindings -/

/-- The keys of a tree increase in the order of their place in it. -/
def Ordered (tree : Avl α) : Prop := tree.toList.Pairwise fun a b => a.1 < b.1

/-- Puts a binding at its place in a sorted list, instead of an earlier binding of its key. -/
def insertSorted (key : Int) (value : α) : List (Int × α) → List (Int × α)
  | [] => [(key, value)]
  | (key', value') :: rest =>
    if key = key' then (key, value) :: rest
    else if key < key' then (key, value) :: (key', value') :: rest
    else (key', value') :: insertSorted key value rest

theorem lookup_cons_eq_ite (key key' : Int) (value : α) (rest : List (Int × α)) :
    ((key', value) :: rest).lookup key = if key = key' then some value else rest.lookup key := by
  rw [List.lookup_cons]
  split_ifs with h
  · simp [h]
  · rw [beq_false_of_ne h]

theorem mem_insertSorted {key : Int} {value : α} {binding : Int × α} {bindings : List (Int × α)}
    (h : binding ∈ insertSorted key value bindings) :
    binding = (key, value) ∨ binding ∈ bindings := by
  induction bindings with
  | nil => exact .inl (List.mem_singleton.1 h)
  | cons head rest ih =>
    unfold insertSorted at h
    split at h
    · exact (List.mem_cons.1 h).imp_right (List.mem_cons_of_mem _)
    · split at h
      · exact List.mem_cons.1 h
      · rcases List.mem_cons.1 h with rfl | h
        · exact .inr List.mem_cons_self
        · exact (ih h).imp_right (List.mem_cons_of_mem _)

theorem pairwise_insertSorted (key : Int) (value : α) {bindings : List (Int × α)}
    (h : bindings.Pairwise fun a b => a.1 < b.1) :
    (insertSorted key value bindings).Pairwise fun a b => a.1 < b.1 := by
  induction bindings with
  | nil => exact List.pairwise_singleton _ _
  | cons head rest ih =>
    obtain ⟨above, sorted⟩ := List.pairwise_cons.1 h
    unfold insertSorted
    split_ifs with heq hlt
    · exact List.pairwise_cons.2 ⟨fun b hb => heq ▸ above b hb, sorted⟩
    · refine List.pairwise_cons.2 ⟨fun b hb => ?_, h⟩
      rcases List.mem_cons.1 hb with rfl | hb
      · exact hlt
      · exact hlt.trans (above b hb)
    · refine List.pairwise_cons.2 ⟨fun b hb => ?_, ih sorted⟩
      rcases mem_insertSorted hb with rfl | hb
      · show head.1 < key
        omega
      · exact above b hb

theorem lookup_insertSorted (key key' : Int) (value : α) (bindings : List (Int × α)) :
    (insertSorted key value bindings).lookup key' =
      if key' = key then some value else bindings.lookup key' := by
  induction bindings with
  | nil => rw [insertSorted, lookup_cons_eq_ite]
  | cons head rest ih =>
    obtain ⟨first, value'⟩ := head
    unfold insertSorted
    split_ifs with heq hlt <;> simp only [lookup_cons_eq_ite, ih] <;> grind

/-- Below a key that the list continues with, the rest of the list is passed over. -/
theorem insertSorted_append_of_lt {key key' : Int} (value value' : α) (h : key < key')
    (left right : List (Int × α)) :
    insertSorted key value (left ++ (key', value') :: right) =
      insertSorted key value left ++ (key', value') :: right := by
  induction left with
  | nil => simp [insertSorted, h, h.ne]
  | cons head rest ih =>
    simp only [List.cons_append, insertSorted, ih]
    split_ifs <;> rfl

theorem insertSorted_append_of_gt {key : Int} (value : α) {left : List (Int × α)}
    (h : ∀ b ∈ left, b.1 < key) (right : List (Int × α)) :
    insertSorted key value (left ++ right) = left ++ insertSorted key value right := by
  induction left with
  | nil => rfl
  | cons head rest ih =>
    have hhead : head.1 < key := h head List.mem_cons_self
    rw [List.cons_append, insertSorted, if_neg hhead.ne', if_neg hhead.not_gt,
      ih fun b hb => h b (List.mem_cons_of_mem _ hb), List.cons_append]

theorem lookup_eq_none_of_forall_ne {key : Int} {bindings : List (Int × α)}
    (h : ∀ b ∈ bindings, b.1 ≠ key) : bindings.lookup key = none := by
  rw [List.lookup_eq_none_iff]
  exact fun b hb => by simpa using (h b hb).symm

/-! ### Ordered trees -/

theorem ordered_empty : (empty : Avl α).Ordered := List.Pairwise.nil

theorem ordered_node_iff {key : Int} {value : α} {height : Nat} {left right : Avl α} :
    (node key value height left right).Ordered ↔
      left.Ordered ∧ right.Ordered ∧ (∀ b ∈ left.toList, b.1 < key) ∧
        ∀ b ∈ right.toList, key < b.1 := by
  simp only [Ordered, toList, List.pairwise_append, List.pairwise_cons, List.mem_cons]
  constructor
  · rintro ⟨hl, ⟨hkr, hr⟩, hlr⟩
    exact ⟨hl, hr, fun b hb => hlr b hb _ (.inl rfl), hkr⟩
  · rintro ⟨hl, hr, hlk, hkr⟩
    refine ⟨hl, ⟨hkr, hr⟩, fun a ha b hb => ?_⟩
    rcases hb with rfl | hb
    · exact hlk a ha
    · exact (hlk a ha).trans (hkr b hb)

/-- Inserting into an ordered tree inserts into the list of its bindings. -/
theorem toList_insert {tree : Avl α} (h : tree.Ordered) (key : Int) (value : α) :
    (tree.insert key value).toList = insertSorted key value tree.toList := by
  induction tree with
  | empty => rfl
  | node key' value' height left right ihl ihr =>
    obtain ⟨hl, hr, hlk, -⟩ := ordered_node_iff.1 h
    rw [insert, toList]
    split_ifs with heq hlt
    · subst heq
      rw [toList_mk, insertSorted_append_of_gt value hlk]
      simp [insertSorted]
    · rw [toList_balance, ihl hl, insertSorted_append_of_lt value value' hlt]
    · have hgt : key' < key := by omega
      rw [toList_balance, ihr hr,
        insertSorted_append_of_gt value fun b hb => (hlk b hb).trans hgt, insertSorted,
        if_neg heq, if_neg hlt]

theorem Ordered.insert {tree : Avl α} (h : tree.Ordered) (key : Int) (value : α) :
    (tree.insert key value).Ordered := by
  rw [Ordered, toList_insert h]
  exact pairwise_insertSorted key value h

/-- Searching an ordered tree is looking the key up in the list of its bindings. -/
theorem find?_eq_lookup {tree : Avl α} (h : tree.Ordered) (key : Int) :
    tree.find? key = tree.toList.lookup key := by
  induction tree with
  | empty => rfl
  | node key' value' height left right ihl ihr =>
    obtain ⟨hl, hr, hlk, hkr⟩ := ordered_node_iff.1 h
    rw [find?, toList, List.lookup_append, lookup_cons_eq_ite]
    split_ifs with heq hlt
    · have hleft : left.toList.lookup key = none :=
        lookup_eq_none_of_forall_ne fun b hb => heq ▸ (hlk b hb).ne
      rw [hleft, Option.none_or]
    · have hright : right.toList.lookup key = none :=
        lookup_eq_none_of_forall_ne fun b hb => (hlt.trans (hkr b hb)).ne'
      rw [ihl hl, hright, Option.or_none]
    · have hgt : key' < key := by omega
      have hleft : left.toList.lookup key = none :=
        lookup_eq_none_of_forall_ne fun b hb => ((hlk b hb).trans hgt).ne
      rw [ihr hr, hleft, Option.none_or]

/-- The latest binding of a key wins, and the other keys keep theirs. -/
theorem find?_insert {tree : Avl α} (h : tree.Ordered) (key key' : Int) (value : α) :
    (tree.insert key value).find? key' = if key' = key then some value else tree.find? key' := by
  rw [find?_eq_lookup (h.insert key value), find?_eq_lookup h, toList_insert h,
    lookup_insertSorted]

end Avl

/-! ### Scopes -/

namespace Scope

/-- The scope of a list of bindings, of which the last was made last. -/
def ofBindings (bindings : List (Int × Int)) : Scope :=
  bindings.foldl (fun scope b => scope.bind b.1 b.2) empty

theorem ofBindings_append_singleton (bindings : List (Int × Int)) (numeral binder : Int) :
    ofBindings (bindings ++ [(numeral, binder)]) = (ofBindings bindings).bind numeral binder := by
  simp [ofBindings]

theorem ordered_ofBindings (bindings : List (Int × Int)) : (ofBindings bindings).Ordered := by
  induction bindings using List.reverseRecOn with
  | nil => exact Avl.ordered_empty
  | append_singleton bindings b ih =>
    rw [ofBindings_append_singleton]
    exact ih.insert b.1 b.2

theorem lookup?_bind {scope : Scope} (h : scope.Ordered) (numeral binder numeral' : Int) :
    (scope.bind numeral binder).lookup? numeral' =
      if numeral' = numeral then some binder else scope.lookup? numeral' :=
  Avl.find?_insert h numeral numeral' binder

/-- A numeral refers to the binder that it was last bound to. -/
theorem lookup?_ofBindings (bindings : List (Int × Int)) (numeral : Int) :
    (ofBindings bindings).lookup? numeral = bindings.reverse.lookup numeral := by
  induction bindings using List.reverseRecOn with
  | nil => rfl
  | append_singleton bindings b ih =>
    rw [ofBindings_append_singleton, lookup?_bind (ordered_ofBindings bindings), ih,
      List.reverse_append, List.reverse_singleton, List.singleton_append, Avl.lookup_cons_eq_ite]

end Scope

end Lambda94
