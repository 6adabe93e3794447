import Lambda94.Proofs.Invariant
import Lambda94.Proofs.Renaming

/-!
# The places of the store belong to the functions of the program

Evaluation never makes a function: it moves those of the program about, whole and unchanged.  Since
renaming has given every function of the program a binder of its own, a function that occurs in
anything in progress, or in an argument, is the one of the program with its binder
(`Expr.SoleFunction`).  So a place of the store belongs to one function of the program, and only
applying that function writes to it: `slots_owned`.
-/

namespace Lambda94

open EvalM

namespace Expr

variable {P : Int → Expr → Prop} {expr : Expr}

/-- Every function that occurs in the expression has the property. -/
def EveryFunction (P : Int → Expr → Prop) (expr : Expr) : Prop :=
  ∀ path binder body, expr.at? path = some (.lam binder body) → P binder body

theorem EveryFunction.of_mem (h : expr.EveryFunction P) {child : Expr}
    (mem : child ∈ expr.children) : child.EveryFunction P := by
  intro path binder body hat
  obtain ⟨i, hchild⟩ := List.mem_iff_getElem?.1 mem
  exact h (i :: path) binder body ((at?_cons hchild path).trans hat)

theorem EveryFunction.of_children (head : ∀ binder body, expr = .lam binder body → P binder body)
    (below : ∀ child ∈ expr.children, child.EveryFunction P) : expr.EveryFunction P := by
  rintro (_ | ⟨i, path⟩) binder body hat
  · exact head binder body (Option.some.inj hat)
  · obtain ⟨child, hchild, hat⟩ := exists_child_of_at?_cons hat
    exact below child (List.mem_of_getElem? hchild) path binder body hat

/-- The functions of an expression that is no function itself are those of its children. -/
theorem everyFunction_iff (stuck : ∀ binder body, expr ≠ .lam binder body) :
    expr.EveryFunction P ↔ ∀ child ∈ expr.children, child.EveryFunction P :=
  ⟨fun h _ => h.of_mem, .of_children fun binder body h => absurd h (stuck binder body)⟩

theorem everyFunction_lit (value : Value) : (lit value).EveryFunction P :=
  .of_children nofun fun _ mem => absurd mem List.not_mem_nil

/-- The program has a function with this binder and this body, and no other with this binder. -/
def SoleFunction (program : Expr) (binder : Int) (body : Expr) : Prop :=
  ∃ path, program.at? path = some (.lam binder body) ∧
    ∀ path' body', program.at? path' = some (.lam binder body') → path' = path ∧ body' = body

/-- If the binders of a program are distinct, each of its functions is the only one with its
binder. -/
theorem everyFunction_soleFunction {program : Expr} (distinct : program.binders.Nodup) :
    program.EveryFunction program.SoleFunction := by
  intro path binder body hat
  refine ⟨path, hat, fun path' body' hat' => ?_⟩
  obtain rfl := path_eq_of_nodup distinct hat hat'
  exact ⟨rfl, (lam.inj (Option.some.inj (hat'.symm.trans hat))).2⟩

end Expr

/-- Evaluation makes no function, whatever the functions of the program are like. -/
theorem invariant_everyFunction (P : Int → Expr → Prop) :
    Invariant fun _ expr => expr.EveryFunction P where
  unary_iff := (Expr.everyFunction_iff (by nofun)).trans List.forall_mem_singleton
  binary_iff := by
    refine (Expr.everyFunction_iff (by nofun)).trans (List.forall_mem_cons.trans ?_)
    exact and_congr_right fun _ => List.forall_mem_singleton
  of_cond h := by
    have hparts := (Expr.everyFunction_iff (by nofun)).1 h
    obtain ⟨hcondition, hbranches⟩ := List.forall_mem_cons.1 hparts
    obtain ⟨hthen, helse⟩ := List.forall_mem_cons.1 hbranches
    exact ⟨hcondition, hthen, List.forall_mem_singleton.1 helse⟩
  unaryValue _ _ := Expr.everyFunction_lit _
  strictValue _ _ _ := Expr.everyFunction_lit _
  kept _ h := h
  body h _ := h.of_mem (List.mem_singleton_self _)

/-! ### Distinct binders -/

theorem Expr.nodup_binders_of_ofText {text : Text} {expr : Expr}
    (read : Expr.ofText text = .ok expr) : expr.binders.Nodup := by
  obtain ⟨program, hprogram, rfl⟩ := Expr.ofText_eq_ok_iff.1 read
  obtain ⟨tree, -, -, binders⟩ := Program.renamed_of_ofText hprogram
  rw [binders]
  exact nodup_countdown _ _

/-! ### Main result -/

/-- The functions that occur in an expression are those of the program. -/
abbrev OfProgram (program : Expr) : Store → Expr → Prop :=
  fun _ expr => expr.EveryFunction program.SoleFunction

/-- While a machine that holds expressions of a program is idle, and during the next call: every
function that occurs anywhere is that of the program with its binder, and every argument is bound by
applying that function. -/
structure SlotsOwned (limits : Limits) (program : Expr) (m : Machine) (held : List Expr) :
    Prop where
  arguments : Store.Keeps (OfProgram program) m.bindings
  returned : ∀ expr ∈ held, expr.EveryFunction program.SoleFunction
  /-- Whatever the machine comes to begin, with all that waits for it. -/
  begins : ∀ expr ∈ held, ∀ (move : Move) (job : Job),
    Job.ComesTo ⟨[], move.task expr, m.bindings⟩ job → job.Upheld (OfProgram program)
  /-- However that ends. -/
  ends : ∀ expr ∈ held, ∀ (move : Move) (job : Job),
    Job.ComesTo ⟨[], move.task expr, m.bindings⟩ job → ∀ log outcome store,
      Run job.pending job.task job.store log outcome store →
        Upheld (OfProgram program) job.store store outcome
  /-- All bindings of the call. -/
  binds : ∀ expr ∈ held, ∀ move : Move, ∃ log,
    Run [] (move.task expr) m.bindings log (outcome id ((move.run limits expr).run m))
      (after ((move.run limits expr).run m)).bindings ∧
    (after ((move.run limits expr).run m)).betas = m.betas + log.length ∧
    ∀ binding ∈ log, Job.Applies ⟨[], move.task expr, m.bindings⟩ binding ∧
      program.SoleFunction binding.binder binding.body

/-- However a fresh machine is driven from a program, by calls on what earlier calls have returned:
every function that occurs in anything in progress or in an argument is the function of the program
with its binder, and nothing but applying that function writes to its place. -/
theorem slots_owned {text : Text} {program : Expr} (read : Expr.ofText text = .ok program)
    {limits : Limits} {m : Machine} {held : List Expr} (driven : Driven limits program m held) :
    SlotsOwned limits program m held := by
  have hI := invariant_everyFunction program.SoleFunction
  have hprogram := Expr.everyFunction_soleFunction (Expr.nodup_binders_of_ofText read)
  obtain ⟨arguments, hheld⟩ := driven.upheld hI hprogram
  have hcall : ∀ expr ∈ held, ∀ move : Move,
      Job.Upheld (OfProgram program) ⟨[], move.task expr, m.bindings⟩ := by
    intro expr mem move
    refine ⟨arguments, ?_, fun _ waiting => absurd waiting List.not_mem_nil⟩
    rw [Move.expr_task]
    exact hheld expr mem
  refine ⟨arguments, hheld, ?_, ?_, ?_⟩
  · exact fun expr mem move job comes => Job.upheld_of_comesTo hI comes (hcall expr mem move)
  · intro expr mem move job comes log outcome store run
    have hjob := Job.upheld_of_comesTo hI comes (hcall expr mem move)
    exact run.upheld hI hjob.arguments hjob.expr
  · intro expr mem move
    obtain ⟨log, run, hbetas⟩ := move.follows_run limits expr [] m
    refine ⟨log, run, hbetas, fun binding hbinding => ⟨run.applies_of_mem hbinding, ?_⟩⟩
    obtain ⟨hfunction, -⟩ := run.upheld_of_mem hI (hcall expr mem move) hbinding
    exact hfunction [] _ _ rfl

/-- A function that applies its argument to two numbers, and the identity as its argument: after a
run on a fresh machine, the identity has been applied twice. -/
theorem slots_owned_applied_twice :
    ∃ text : Text, ∃ program m held, text = "B$ L! B+ B$ v! I\" B$ v! I# L! v!" ∧
      Expr.ofText text = .ok program ∧ Driven {} program m held ∧ m.betas = 3 ∧
      m.bindings.size = 2 ∧ SlotsOwned {} program m held := by
  let text : Text := "B$ L! B+ B$ v! I\" B$ v! I# L! v!"
  let program : Expr :=
    .app
      (.lam (-1)
        (.binary (.strict .add) (.app (.var (-1)) (.lit (.int 1)))
          (.app (.var (-1)) (.lit (.int 2)))))
      (.lam (-2) (.var (-2)))
  let evaluated := (Move.evaluate.run {} program).run {}
  have read : Expr.ofText text = .ok program := by decide +kernel
  have driven : Driven {} program (after evaluated) (returned evaluated ++ [program]) :=
    .call .fresh .evaluate (List.mem_singleton_self program)
  have counts : (after evaluated).betas = 3 ∧ (after evaluated).bindings.size = 2 := by
    decide +kernel
  exact ⟨text, program, _, _, rfl, read, driven, counts.1, counts.2, slots_owned read driven⟩

end Lambda94
