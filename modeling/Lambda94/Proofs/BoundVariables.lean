import Lambda94.Proofs.Invariant
import Lambda94.Proofs.Soundness

/-!
# Every variable of a closed program is bound

While a closed program is evaluated, every free variable of what is in progress has an argument in
the store, and so have those of the arguments (`Store.Covers`).  A binding may put another argument
into the place of an earlier one, but it never empties a place.  So no call, however the machine is
driven, meets an unbound variable: `call_ne_unboundVariable`.
-/

namespace Lambda94

open EvalM

/-- Every free variable of the expression has an argument. -/
def Store.Covers (store : Store) (expr : Expr) : Prop :=
  ∀ id ∈ expr.freeVars, (store[id]?).isSome

theorem Store.covers_of_closed {expr : Expr} (closed : expr.Closed) (store : Store) :
    store.Covers expr := fun id mem => absurd mem (Expr.closed_iff.1 closed id)

theorem Store.isSome_insert {store : Store} {id : Int} (h : (store[id]?).isSome) (binder : Int)
    (arg : Expr) : ((store.insert binder arg)[id]?).isSome := by
  by_cases hid : id = binder
  · rw [hid, getElem?_insert_self, Option.isSome_some]
  · rwa [getElem?_insert_of_ne _ _ hid]

theorem invariant_covers : Invariant Store.Covers where
  unary_iff := Iff.rfl
  binary_iff := List.forall_mem_append
  of_cond h := by
    obtain ⟨h', helse⟩ := List.forall_mem_append.1 h
    obtain ⟨hcondition, hthen⟩ := List.forall_mem_append.1 h'
    exact ⟨hcondition, hthen, helse⟩
  unaryValue _ _ _ mem := absurd mem List.not_mem_nil
  strictValue _ _ _ _ mem := absurd mem List.not_mem_nil
  kept _ h id mem := Store.isSome_insert (h id mem) _ _
  body {store binder body arg} h _ id mem := by
    by_cases hid : id = binder
    · rw [hid, Store.getElem?_insert_self, Option.isSome_some]
    · exact Store.isSome_insert (h id (Expr.mem_freeVars_lam.2 ⟨mem, hid⟩)) _ _

/-- A run that keeps all variables bound does not end at an unbound one. -/
theorem Upheld.ne_unboundVariable {store store' : Store} {outcome : Except EvalError Expr}
    (h : Upheld Store.Covers store store' outcome) (id : Int) :
    outcome ≠ .error (.unboundVariable id) := by
  rintro rfl
  obtain ⟨store, hvar, unbound⟩ := h.outcome id rfl
  have bound := hvar id (List.mem_singleton_self id)
  rw [unbound] at bound
  cases bound

/-! ### Main result -/

/-- However a fresh machine is driven from a closed program, by calls on what earlier calls have
returned, and whatever was overwritten on the way: no call ends because of an unbound variable. -/
theorem call_ne_unboundVariable {text : Text} {tree : ParseTree} {program : Expr}
    (parsed : ParseTree.ofText text = .ok tree) (closed : tree.Closed)
    (read : Expr.ofText text = .ok program) {limits : Limits} {m : Machine} {held : List Expr}
    (driven : Driven limits program m held) {expr : Expr} (mem : expr ∈ held) (move : Move)
    (id : Int) (m' : Machine) : (move.run limits expr).run m ≠ .error (.unboundVariable id) m' := by
  intro hcall
  have hprogram := Store.covers_of_closed (closed_of_ofText parsed closed read) ∅
  obtain ⟨arguments, hheld⟩ := driven.upheld invariant_covers hprogram
  have hupheld := move.upheld invariant_covers arguments (hheld expr mem) limits
  rw [hcall] at hupheld
  obtain ⟨store, hvar, unbound⟩ := hupheld.outcome id rfl
  have bound := hvar id (List.mem_singleton_self id)
  rw [unbound] at bound
  cases bound

/-- A function that is applied again inside the argument of its first application, which overwrites
its argument; afterwards the program is stepped on the same machine. -/
theorem call_ne_unboundVariable_overwritten :
    ∃ text : Text, ∃ tree program m held,
      text = "B$ L! B$ B$ v! I\" B$ B$ v! I+ I! L! L\" B+ v\" v!" ∧
      ParseTree.ofText text = .ok tree ∧ tree.Closed ∧ Expr.ofText text = .ok program ∧
      Driven {} program m held ∧ m.bindings.size < m.betas ∧ program ∈ held ∧
      ∀ id m', (Move.step.run {} program).run m ≠ .error (.unboundVariable id) m' := by
  let text : Text := "B$ L! B$ B$ v! I\" B$ B$ v! I+ I! L! L\" B+ v\" v!"
  let plus : Expr := .lam (-2) (.lam (-3) (.binary (.strict .add) (.var (-3)) (.var (-2))))
  let program : Expr :=
    .app
      (.lam (-1)
        (.app (.app (.var (-1)) (.lit (.int 1)))
          (.app (.app (.var (-1)) (.lit (.int 10))) (.lit (.int 0)))))
      plus
  let evaluated := (Move.evaluate.run {} program).run {}
  obtain ⟨tree, parsed, closed⟩ : ∃ tree, ParseTree.ofText text = .ok tree ∧ tree.Closed :=
    ParseTree.exists_closed_of_ofText (by decide +kernel)
  have read : Expr.ofText text = .ok program := by decide +kernel
  have driven : Driven {} program (after evaluated) (returned evaluated ++ [program]) :=
    .call .fresh .evaluate (List.mem_singleton_self program)
  have overwritten : (after evaluated).bindings.size < (after evaluated).betas := by
    decide +kernel
  have mem : program ∈ returned evaluated ++ [program] :=
    List.mem_append_right _ (List.mem_singleton_self program)
  exact ⟨text, tree, program, _, _, rfl, parsed, closed, read, driven, overwritten, mem,
    call_ne_unboundVariable parsed closed read driven mem .step⟩

end Lambda94
