import Lambda94.Proofs.SearchTree

/-!
# Versions of persistent data

An operation on persistent data makes a new version and leaves the earlier ones as they were, so
that any of them may be the start of the next operation.  A history of such operations makes a list
of versions (`versions`), and what leads to a version is a path through it (`paths`).

For search trees and scopes a version is a finite map in which the latest binding on its path wins,
whatever other versions were made from those on the path: `latest_binding_wins`.
-/

namespace Lambda94

section

variable {σ τ β : Type}

/-- The versions that a history makes, oldest first.  Version `0` is `start`, and each operation
makes one more from the version that it names; it makes none if there is no such version. -/
def versions (op : σ → β → σ) (start : σ) (history : List (Nat × β)) : List σ :=
  history.foldl (fun made entry => made ++ (made[entry.1]?.map (op · entry.2)).toList) [start]

/-- What was given to the operations that lead to each version, from version `0` on. -/
def paths (history : List (Nat × β)) : List (List β) :=
  versions (fun path b => path ++ [b]) [] history

variable {op : σ → β → σ} {start : σ}

theorem versions_append_singleton (history : List (Nat × β)) (entry : Nat × β) :
    versions op start (history ++ [entry]) = versions op start history ++
      ((versions op start history)[entry.1]?.map (op · entry.2)).toList := by
  rw [versions, List.foldl_append]
  rfl

/-- Later operations leave the versions as they are. -/
theorem versions_append_of_eq_some {history : List (Nat × β)} {i : Nat} {s : σ}
    (h : (versions op start history)[i]? = some s) (more : List (Nat × β)) :
    (versions op start (history ++ more))[i]? = some s := by
  induction more using List.reverseRecOn with
  | nil => rwa [List.append_nil]
  | append_singleton more entry ih =>
    obtain ⟨made, -⟩ := List.getElem?_eq_some_iff.1 ih
    rw [← List.append_assoc, versions_append_singleton, List.getElem?_append_left made, ih]

/-- What the start has and every operation keeps, every version has. -/
theorem forall_mem_versions {P : σ → Prop} (first : P start) (keeps : ∀ s b, P s → P (op s b))
    (history : List (Nat × β)) : ∀ s ∈ versions op start history, P s := by
  induction history using List.reverseRecOn with
  | nil =>
    intro s mem
    exact List.mem_singleton.1 mem ▸ first
  | append_singleton history entry ih =>
    intro s mem
    rw [versions_append_singleton, List.mem_append, Option.mem_toList,
      Option.map_eq_some_iff] at mem
    rcases mem with mem | ⟨source, hsource, rfl⟩
    · exact ih s mem
    · exact keeps source entry.2 (ih source (List.mem_of_getElem? hsource))

/-- A view of the data that follows the operations follows the histories. -/
theorem versions_map (op : σ → β → σ) (start : σ) {op' : τ → β → τ} (view : σ → τ)
    (follows : ∀ s b, view (op s b) = op' (view s) b) (history : List (Nat × β)) :
    versions op' (view start) history = (versions op start history).map view := by
  induction history using List.reverseRecOn with
  | nil => rfl
  | append_singleton history entry ih =>
    rw [versions_append_singleton, versions_append_singleton, ih, List.getElem?_map,
      List.map_append]
    cases (versions op start history)[entry.1]? with
    | none => rfl
    | some source => simp [follows]

/-- Each version comes from the start by the operations on its path. -/
theorem versions_eq_map_paths (history : List (Nat × β)) :
    versions op start history = (paths history).map (List.foldl op start) :=
  versions_map (fun path b => path ++ [b]) [] (List.foldl op start) (fun _ _ => List.foldl_append)
    history

end

/-! ### Search trees and scopes -/

namespace Avl

variable {α : Type}

/-- The trees that a history of insertions makes from the empty tree. -/
def history (insertions : List (Nat × Int × α)) : List (Avl α) :=
  versions (fun tree b => tree.insert b.1 b.2) .empty insertions

/-- The keys of a tree, in the order of their place in it. -/
def keys (tree : Avl α) : List Int := tree.toList.map Prod.fst

theorem ordered_of_mem_history {insertions : List (Nat × Int × α)} {tree : Avl α}
    (mem : tree ∈ history insertions) : tree.Ordered :=
  forall_mem_versions ordered_empty (fun _ b h => h.insert b.1 b.2) insertions tree mem

theorem mem_keys_insertSorted (key key' : Int) (value : α) (bindings : List (Int × α)) :
    key' ∈ (insertSorted key value bindings).map Prod.fst ↔
      key' = key ∨ key' ∈ bindings.map Prod.fst := by
  induction bindings with
  | nil => simp [insertSorted]
  | cons head rest ih =>
    unfold insertSorted
    split_ifs with heq hlt
    · simp [heq]
    · simp
    · simp only [List.map_cons, List.mem_cons, ih]
      exact or_left_comm

theorem mem_keys_insert {tree : Avl α} (h : tree.Ordered) (key key' : Int) (value : α) :
    key' ∈ (tree.insert key value).keys ↔ key' = key ∨ key' ∈ tree.keys := by
  rw [keys, toList_insert h, mem_keys_insertSorted]
  rfl

end Avl

namespace Scope

/-- The scopes that a history of bindings makes from the empty scope. -/
def history (bindings : List (Nat × Int × Int)) : List Scope :=
  versions (fun scope b => scope.bind b.1 b.2) empty bindings

theorem history_eq_map_paths (bindings : List (Nat × Int × Int)) :
    history bindings = (paths bindings).map ofBindings :=
  versions_eq_map_paths bindings

end Scope

/-- In every tree that insertions make, each of them from any earlier tree, an insertion binds its
key to its value, leaves the other keys theirs, and adds its key to the keys and no other.  In every
scope that bindings make, each of them from any earlier scope, a numeral refers to the binder of its
last binding on the path to that scope, if there is one; scopes that are made later change neither
the scope nor its path. -/
theorem latest_binding_wins {α : Type} (insertions : List (Nat × Int × α))
    (bindings : List (Nat × Int × Int)) :
    (∀ tree ∈ Avl.history insertions, ∀ key value key',
      (tree.insert key value).find? key' =
          (if key' = key then some value else tree.find? key') ∧
        (key' ∈ (tree.insert key value).keys ↔ key' = key ∨ key' ∈ tree.keys)) ∧
      ∀ (i : Nat) (scope : Scope), (Scope.history bindings)[i]? = some scope →
        ∃ path, (∀ numeral, scope.lookup? numeral = path.reverse.lookup numeral) ∧
          ∀ more, (Scope.history (bindings ++ more))[i]? = some scope ∧
            (paths (bindings ++ more))[i]? = some path := by
  constructor
  · intro tree mem key value key'
    have ordered := Avl.ordered_of_mem_history mem
    exact ⟨Avl.find?_insert ordered key key' value, Avl.mem_keys_insert ordered key key' value⟩
  · intro i scope made
    obtain ⟨path, hpath, rfl⟩ : ∃ path, (paths bindings)[i]? = some path ∧
        Scope.ofBindings path = scope := by
      rwa [Scope.history_eq_map_paths, List.getElem?_map, Option.map_eq_some_iff] at made
    exact ⟨path, Scope.lookup?_ofBindings path, fun more =>
      ⟨versions_append_of_eq_some made more, versions_append_of_eq_some hpath more⟩⟩

/-- Three insertions in ascending order, which turn the tree, and four bindings: the third shadows
the first, and the fourth goes on from the scope in front of that. -/
theorem latest_binding_wins_branched :
    let insertions : List (Nat × Int × Bool) := [(0, 1, true), (1, 2, true), (2, 3, true)]
    let bindings : List (Nat × Int × Int) := [(0, 7, -1), (1, 8, -2), (2, 7, -3), (1, 7, -4)]
    ∃ (tree : Avl Bool) (scope : Scope), tree ∈ Avl.history insertions ∧ tree.height = 2 ∧
      (Scope.history bindings)[3]? = some scope ∧
      (tree.insert 3 false).find? 3 = some false ∧ (tree.insert 3 false).find? 1 = some true ∧
      ¬4 ∈ (tree.insert 3 false).keys ∧
      scope.lookup? 7 = some (-3) ∧ scope.lookup? 8 = some (-2) ∧ scope.lookup? 9 = none := by
  intro insertions bindings
  obtain ⟨trees, scopes⟩ := latest_binding_wins insertions bindings
  let tree := Avl.mk 2 true (.mk 1 true .empty .empty) (.mk 3 true .empty .empty)
  have mem : tree ∈ Avl.history insertions := by decide
  let scope : Scope := .mk 7 (-3) .empty (.mk 8 (-2) .empty .empty)
  have made : (Scope.history bindings)[3]? = some scope := by decide
  obtain ⟨path, refers, same⟩ := scopes 3 scope made
  obtain rfl : path = [(7, -1), (8, -2), (7, -3)] :=
    Option.some.inj ((same []).2.symm.trans (by decide))
  refine ⟨tree, scope, mem, rfl, made, (trees tree mem 3 false 3).1, (trees tree mem 3 false 1).1,
    fun h => ?_, refers 7, refers 8, refers 9⟩
  have := (trees tree mem 3 false 4).2.1 h
  revert this
  decide

end Lambda94
