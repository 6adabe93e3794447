import Lambda94.Proofs.Position
import Lambda94.Proofs.Simulation

/-!
# Arguments that are not used

An argument is bound unevaluated, so that one to which no variable refers might be anything: an
evaluation does not tell it from another, not even by its counts.  The redex may be anywhere, in a
branch that is not taken, in a body that is entered again and again, or in an argument that is
itself copied or overwritten.

Two expressions agree off `unused` if they differ only in arguments of functions with that binder,
and the variable `unused` does not occur elsewhere (`Expr.AgreesOff`).  Evaluated side by side they
go on to agree, and the machines to have the same arguments but for that one binder
(`Machine.AgreesOff`).  Other than in a simulation, the limits end both evaluations or neither
(`EvalM.Together`).
-/

namespace Lambda94

open EvalM

/-! ### Agreement -/

/-- The expressions differ only in arguments of functions with the binder `unused`, and `unused` is
no variable elsewhere. -/
inductive Expr.AgreesOff (unused : Int) : Expr → Expr → Prop
  | lit (value : Value) : AgreesOff unused (.lit value) (.lit value)
  | unary (op : UnaryOp) {operand operand' : Expr} (h : AgreesOff unused operand operand') :
    AgreesOff unused (.unary op operand) (.unary op operand')
  | binary (op : BinaryOp) {left left' right right' : Expr} (hleft : AgreesOff unused left left')
    (hright : AgreesOff unused right right') :
    AgreesOff unused (.binary op left right) (.binary op left' right')
  | cond {condition condition' thenBranch thenBranch' elseBranch elseBranch' : Expr}
    (hcondition : AgreesOff unused condition condition')
    (hthen : AgreesOff unused thenBranch thenBranch')
    (helse : AgreesOff unused elseBranch elseBranch') :
    AgreesOff unused (.cond condition thenBranch elseBranch)
      (.cond condition' thenBranch' elseBranch')
  | lam (binder : Int) {body body' : Expr} (h : AgreesOff unused body body') :
    AgreesOff unused (.lam binder body) (.lam binder body')
  | var {id : Int} (other : id ≠ unused) : AgreesOff unused (.var id) (.var id)
  | redex {body body' : Expr} (h : AgreesOff unused body body') (arg arg' : Expr) :
    AgreesOff unused (.app (.lam unused body) arg) (.app (.lam unused body') arg')

/-- Head normal forms agree as the expressions that they are. -/
inductive HeadNormal.AgreesOff (unused : Int) : HeadNormal → HeadNormal → Prop
  | lit (value : Value) : AgreesOff unused (.lit value) (.lit value)
  | lam (binder : Int) {body body' : Expr} (bodies : body.AgreesOff unused body') :
    AgreesOff unused (.lam binder body) (.lam binder body')
  | var {id : Int} (other : id ≠ unused) : AgreesOff unused (.var id) (.var id)

/-- Loops return the same value, or head normal forms that agree. -/
def Target.AgreesOff (unused : Int) : (target : Target) → target.Result → target.Result → Prop
  | .value => fun value value' : Value => value = value'
  | .headNormal => HeadNormal.AgreesOff unused

/-- The machines have gone through the same, with arguments that agree but for the one that no
variable refers to. -/
structure Machine.AgreesOff (unused : Int) (m m' : Machine) : Prop where
  bindings : ∀ id ≠ unused, Option.Rel (Expr.AgreesOff unused) m.bindings[id]? m'.bindings[id]?
  remaining : m'.remaining = m.remaining
  loops : m'.loops = m.loops
  steps : m'.steps = m.steps
  betas : m'.betas = m.betas

variable {unused : Int}

namespace Machine.AgreesOff

variable {m m' : Machine}

theorem countStep (h : m.AgreesOff unused m') :
    AgreesOff unused { m with steps := m.steps + 1 } { m' with steps := m'.steps + 1 } :=
  { h with steps := congrArg (· + 1) h.steps }

/-- An argument enters both machines, and if anything refers to it, both of them have the same. -/
theorem bindArg (h : m.AgreesOff unused m') {binder : Int} {arg arg' : Expr}
    (args : binder ≠ unused → arg.AgreesOff unused arg') :
    AgreesOff unused
      { m with bindings := m.bindings.insert binder arg, betas := m.betas + 1 }
      { m' with bindings := m'.bindings.insert binder arg', betas := m'.betas + 1 } where
  bindings id hid := by
    by_cases hbinder : id = binder
    · subst hbinder
      rw [Store.getElem?_insert_self, Store.getElem?_insert_self]
      exact .some (args hid)
    · rw [Store.getElem?_insert_of_ne _ _ hbinder, Store.getElem?_insert_of_ne _ _ hbinder]
      exact h.bindings id hid
  remaining := h.remaining
  loops := h.loops
  steps := h.steps
  betas := congrArg (· + 1) h.betas

end Machine.AgreesOff

theorem encloses_agreesOff (limits : Limits) (unused : Int) :
    Encloses limits limits (Machine.AgreesOff unused) (Machine.AgreesOff unused) where
  depth := Nat.le_refl _
  frames := Nat.le_refl _
  loops h := h.loops
  outermost h _ := { h with remaining := rfl, loops := rfl }
  inner h _ := { h with loops := congrArg (· + 1) h.loops }
  leave h := { h with loops := congrArg (· - 1) h.loops }

/-! ### Steps and loops -/

/-- A loop that starts at a function returns it. -/
theorem Run.eq_of_loop_lam {pending : List Expr} {binder : Int} {body next : Expr}
    {store store' : Store} {log : List Binding}
    (h : Run pending (.loop .headNormal (.lam binder body)) store log (.ok next) store') :
    next = .lam binder body := by
  cases h with
  | reach step _ =>
    cases step
    rfl
  | next step short _ =>
    cases step
    cases short

namespace EvalM

theorem Follows.eq_of_lam {binder : Int} {body : Expr} {x : EvalM HeadNormal}
    (h : Follows (.loop .headNormal (.lam binder body)) HeadNormal.toExpr x) (m : Machine)
    (head : HeadNormal) (m₁ : Machine) (hrun : x.run m = .ok head m₁) :
    head = .lam binder body := by
  obtain ⟨log, hloop, -⟩ := h [] m
  rw [hrun] at hloop
  have htoExpr := hloop.eq_of_loop_lam
  cases head with
  | lam binder' body' =>
    cases htoExpr
    rfl
  | lit value => cases htoExpr
  | var id => cases htoExpr

theorem Together.counting {α α' : Type} {S : α → α' → Prop} {x : EvalM α} {y : EvalM α'}
    (h : Together (Machine.AgreesOff unused) S x y) :
    Together (Machine.AgreesOff unused) S (do EvalM.countStep; x) (do EvalM.countStep; y) :=
  fun _ _ hm => h _ _ hm.countStep

theorem Together.lookup {id : Int} (other : id ≠ unused) :
    Together (Machine.AgreesOff unused) (Expr.AgreesOff unused) (EvalM.lookup id)
      (EvalM.lookup id) := by
  intro m m' hm
  rw [run_lookup, run_lookup]
  have hargs := hm.bindings id other
  generalize m.bindings[id]? = arg at hargs
  generalize m'.bindings[id]? = arg' at hargs
  cases hargs with
  | none => exact .error _ hm
  | some h => exact .ok h hm

theorem together_ofExcept (x : Except EvalError Value) :
    Together (Machine.AgreesOff unused) (Expr.AgreesOff unused)
      (do return .lit (← ofExcept x)) (do return .lit (← ofExcept x)) := by
  cases x with
  | ok value => exact fun _ _ hm => .ok (.lit value) hm
  | error error => exact fun _ _ hm => .error error hm

end EvalM

namespace Expr.AgreesOff

variable {expr expr' : Expr}

theorem stuck (h : expr.AgreesOff unused expr') (stuck : ∀ value, expr ≠ .lit value)
    (value : Value) : expr' ≠ .lit value := by
  rintro rfl
  cases h
  exact stuck value rfl

/-- Agreeing expressions reach a target together. -/
theorem reach? (h : expr.AgreesOff unused expr') (target : Target) :
    Option.Rel (target.AgreesOff unused) (target.reach? expr) (target.reach? expr') := by
  cases target with
  | value =>
    cases h with
    | lit value => exact .some rfl
    | unary | binary | cond | lam | var | redex => exact .none
  | headNormal =>
    cases h with
    | lit value => exact .some (.lit value)
    | lam binder h => exact .some (.lam binder h)
    | var other => exact .some (.var other)
    | unary | binary | cond | redex => exact .none

end Expr.AgreesOff

/-- Agreeing expressions step together to agreeing ones, if the loops that the steps start end
together.  The functions of the redexes are found as they are, for such a loop does nothing to
them. -/
theorem together_stepWith {run : (target : Target) → Expr → EvalM target.Result}
    (hfollows : ∀ target expr, Follows (.loop target expr) target.toExpr (run target expr))
    (hrun : ∀ target expr expr', expr.AgreesOff unused expr' →
      Together (Machine.AgreesOff unused) (target.AgreesOff unused) (run target expr)
        (run target expr'))
    {expr expr' : Expr} (h : expr.AgreesOff unused expr') :
    Together (Machine.AgreesOff unused) (Expr.AgreesOff unused) (expr.stepWith run)
      (expr'.stepWith run) := by
  induction h with
  | lit value => exact .counting (.pure (.lit value))
  | lam binder h => exact .counting (.pure (.lam binder h))
  | var other => exact .counting (.lookup other)
  | @unary op operand operand' h ih =>
    by_cases hlit : ∃ value, operand = .lit value
    · obtain ⟨value, rfl⟩ := hlit
      cases h
      exact .counting (together_ofExcept _)
    · have stuck : ∀ value, operand ≠ .lit value := fun value h' => hlit ⟨value, h'⟩
      rw [Expr.stepWith_unary op stuck, Expr.stepWith_unary op (h.stuck stuck)]
      exact .counting (ih.bind fun _ _ hnext => .pure (.unary op hnext))
  | @binary op left left' right right' hleft hright =>
    cases op with
    | strict op =>
      refine .counting ((hrun .value left left' hleft).bind fun a a' ha => ?_)
      obtain rfl : a = a' := ha
      refine (hrun .value right right' hright).bind fun b b' hb => ?_
      obtain rfl : b = b' := hb
      exact together_ofExcept _
    | apply =>
      refine .counting ((hrun .headNormal left left' hleft).bind fun head head' hhead => ?_)
      cases hhead with
      | lit value => exact .throw _
      | lam binder bodies => exact fun _ _ hm => .ok bodies (hm.bindArg fun _ => hright)
      | var other => exact .pure (.binary .apply (.var other) hright)
  | redex h arg arg' =>
    have hheads := (hrun .headNormal _ _ (.lam unused h)).strengthen
      (hfollows .headNormal _).eq_of_lam (hfollows .headNormal _).eq_of_lam
    refine .counting (hheads.bind ?_)
    rintro _ _ ⟨-, rfl, rfl⟩
    exact fun _ _ hm => .ok h (hm.bindArg fun ne => absurd rfl ne)
  | @cond condition condition' _ _ _ _ hcondition hthen helse =>
    refine .counting ((hrun .value condition condition' hcondition).bind fun a a' ha => ?_)
    obtain rfl : a = a' := ha
    cases a with
    | bool b =>
      cases b with
      | true => exact .pure hthen
      | false => exact .pure helse
    | str s => exact .throw _
    | int n => exact .throw _

theorem together_spend (limits : Limits) (target : Target) :
    Together (Machine.AgreesOff unused) Eq (spend limits target) (spend limits target) := by
  intro m m' hm
  rw [run_spend, run_spend, hm.remaining]
  split_ifs
  · exact .error _ hm
  · exact .ok rfl { hm with remaining := rfl }

/-- The traces may differ, and do where an argument that is not used is recorded. -/
theorem together_record (expr expr' : Expr) :
    Together (Machine.AgreesOff unused) Eq (record expr) (record expr') := by
  intro m m' hm
  rw [run_record, run_record]
  by_cases houtermost : m.loops = 1
  · rw [if_pos houtermost, if_pos (hm.loops.trans houtermost)]
    exact .ok rfl { hm with }
  · rw [if_neg houtermost, if_neg (hm.loops ▸ houtermost)]
    exact .ok rfl hm

theorem together_iterate (limits : Limits) (bound : Nat) (target : Target) {expr expr' : Expr}
    (h : expr.AgreesOff unused expr') :
    Together (Machine.AgreesOff unused) (target.AgreesOff unused)
      (iterate limits bound target expr) (iterate limits bound target expr') := by
  induction bound generalizing target expr expr' with
  | zero => exact .throw _
  | succ bound ih =>
    have hstep := together_stepWith
      (fun target expr => (follows_iterate limits bound target expr).inLoop limits)
      (fun target _ _ h => (ih target h).inLoop (encloses_agreesOff limits unused)) h
    rw [iterate, iterate]
    refine (together_spend limits target).bind fun _ _ _ => hstep.bind fun next next' hnext => ?_
    refine (together_record next next').bind fun _ _ _ => ?_
    have hreach := hnext.reach? target
    generalize target.reach? next = result at hreach ⊢
    generalize target.reach? next' = result' at hreach ⊢
    cases hreach with
    | some results => exact .pure results
    | none => exact ih target hnext

theorem together_runLoop (limits : Limits) (target : Target) {expr expr' : Expr}
    (h : expr.AgreesOff unused expr') :
    Together (Machine.AgreesOff unused) (target.AgreesOff unused) (runLoop limits target expr)
      (runLoop limits target expr') :=
  (together_iterate limits limits.iterations target h).inLoop (encloses_agreesOff limits unused)

/-! ### Replacing an argument -/

namespace Expr

/-- The expression with another one in place of the node at a path; where there is no such node, it
is left as it is. -/
def replaceAt : Expr → Path → Expr → Expr
  | _, [], new => new
  | .unary op operand, 0 :: path, new => .unary op (operand.replaceAt path new)
  | .binary op left right, 0 :: path, new => .binary op (left.replaceAt path new) right
  | .binary op left right, 1 :: path, new => .binary op left (right.replaceAt path new)
  | .cond condition thenBranch elseBranch, 0 :: path, new =>
    .cond (condition.replaceAt path new) thenBranch elseBranch
  | .cond condition thenBranch elseBranch, 1 :: path, new =>
    .cond condition (thenBranch.replaceAt path new) elseBranch
  | .cond condition thenBranch elseBranch, 2 :: path, new =>
    .cond condition thenBranch (elseBranch.replaceAt path new)
  | .lam binder body, 0 :: path, new => .lam binder (body.replaceAt path new)
  | expr, _ :: _, _ => expr

@[simp] theorem replaceAt_nil (expr new : Expr) : expr.replaceAt [] new = new := by
  cases expr <;> rfl

/-- Every variable `id` is at the path or below it. -/
def OccursWithin (id : Int) (expr : Expr) (path : Path) : Prop :=
  ∀ inner, expr.at? inner = some (.var id) → path <+: inner

theorem OccursWithin.child {id : Int} {expr child : Expr} {i : Nat} {path : Path}
    (h : expr.OccursWithin id (i :: path)) (hchild : expr.children[i]? = some child) :
    child.OccursWithin id path := by
  intro inner hat
  exact (List.cons_prefix_cons.1 (h (i :: inner) (by rwa [at?_cons hchild]))).2

/-- No variable is in a child that the path does not go through. -/
theorem OccursWithin.other {id : Int} {expr child : Expr} {i j : Nat} {path : Path}
    (h : expr.OccursWithin id (i :: path)) (hchild : expr.children[j]? = some child) (ne : i ≠ j)
    (inner : Path) : child.at? inner ≠ some (.var id) := by
  intro hat
  exact ne (List.cons_prefix_cons.1 (h (j :: inner) (by rwa [at?_cons hchild]))).1

/-- An expression in which the variable does not occur agrees with itself. -/
theorem agreesOff_self {expr : Expr} (h : ∀ path, expr.at? path ≠ some (.var unused)) :
    expr.AgreesOff unused expr := by
  induction expr with
  | lit value => exact .lit value
  | unary op operand ih => exact .unary op (ih fun path => h (0 :: path))
  | binary op left right ihleft ihright =>
    exact .binary op (ihleft fun path => h (0 :: path)) (ihright fun path => h (1 :: path))
  | cond condition thenBranch elseBranch ihcondition ihthen ihelse =>
    exact .cond (ihcondition fun path => h (0 :: path)) (ihthen fun path => h (1 :: path))
      (ihelse fun path => h (2 :: path))
  | lam binder body ih => exact .lam binder (ih fun path => h (0 :: path))
  | var id =>
    refine .var ?_
    rintro rfl
    exact h [] rfl

/-- A redex whose binder is a variable nowhere but in the argument, and another argument in its
place. -/
theorem agreesOff_replaceAt {expr body arg : Expr} {path : Path}
    (redex : expr.at? path = some (.app (.lam unused body) arg))
    (within : expr.OccursWithin unused (path ++ [1])) (arg' : Expr) :
    expr.AgreesOff unused (expr.replaceAt (path ++ [1]) arg') := by
  induction path generalizing expr with
  | nil =>
    obtain rfl := Option.some.inj redex
    have hbody : body.AgreesOff unused body :=
      agreesOff_self fun inner => within.other (j := 0) rfl nofun (0 :: inner)
    show AgreesOff unused _ (.app (.lam unused body) (arg.replaceAt [] arg'))
    rw [replaceAt_nil]
    exact .redex hbody arg arg'
  | cons i path ih =>
    obtain ⟨child, hchild, hat⟩ := exists_child_of_at?_cons redex
    have hchanged := ih hat (within.child hchild)
    have hself : ∀ j sibling, expr.children[j]? = some sibling → i ≠ j →
        sibling.AgreesOff unused sibling :=
      fun j sibling hsibling ne => agreesOff_self (within.other hsibling ne)
    cases expr with
    | lit value => cases hchild
    | var id => cases hchild
    | unary op operand =>
      obtain _ | i := i <;> cases hchild
      exact .unary op hchanged
    | binary op left right =>
      obtain _ | _ | i := i <;> cases hchild
      · exact .binary op hchanged (hself 1 right rfl nofun)
      · exact .binary op (hself 0 left rfl nofun) hchanged
    | cond condition thenBranch elseBranch =>
      obtain _ | _ | _ | i := i <;> cases hchild
      · exact .cond hchanged (hself 1 thenBranch rfl nofun) (hself 2 elseBranch rfl nofun)
      · exact .cond (hself 0 condition rfl nofun) hchanged (hself 2 elseBranch rfl nofun)
      · exact .cond (hself 0 condition rfl nofun) (hself 1 thenBranch rfl nofun) hchanged
    | lam binder body =>
      obtain _ | i := i <;> cases hchild
      exact .lam binder hchanged

end Expr

/-! ### Main result -/

/-- If the variable of a redex, which may be anywhere in an expression, occurs nowhere but in the
argument, then any expression may be put in place of the argument: on fresh machines, within any
limits, the evaluation ends with the same value or with the same error, and with the same counts. -/
theorem evaluate_replaceAt_argument {expr body arg : Expr} {path : Path}
    (redex : expr.at? path = some (.app (.lam unused body) arg))
    (within : expr.OccursWithin unused (path ++ [1])) (arg' : Expr) (limits : Limits) :
    outcome .lit (((expr.replaceAt (path ++ [1]) arg').evaluate limits).run {}) =
        outcome .lit ((expr.evaluate limits).run {}) ∧
      (after (((expr.replaceAt (path ++ [1]) arg').evaluate limits).run {})).steps =
        (after ((expr.evaluate limits).run {})).steps ∧
      (after (((expr.replaceAt (path ++ [1]) arg').evaluate limits).run {})).betas =
        (after ((expr.evaluate limits).run {})).betas := by
  have hagrees := Expr.agreesOff_replaceAt redex within arg'
  have fresh : Machine.AgreesOff unused {} {} := ⟨fun _ _ => .none, rfl, rfl, rfl, rfl⟩
  have hend := together_runLoop limits .value hagrees {} {} fresh
  rw [Expr.evaluate, Expr.evaluate]
  generalize (runLoop limits .value expr).run {} = r at hend ⊢
  generalize (runLoop limits .value (expr.replaceAt (path ++ [1]) arg')).run {} = r' at hend ⊢
  cases hend with
  | @ok value value' _ _ results machines =>
    obtain rfl : value = value' := results
    exact ⟨rfl, machines.steps, machines.betas⟩
  | error error machines => exact ⟨rfl, machines.steps, machines.betas⟩

/-- A redex inside the argument of a function that uses this argument twice: instead of the binder
itself, the redex is given a computation that never ends. -/
theorem evaluate_replaceAt_argument_endless :
    ∃ program endless : Expr,
      program = .app (.lam (-1) (.binary (.strict .add) (.var (-1)) (.var (-1))))
        (.app (.lam (-2) (.lit (.int 3))) (.var (-2))) ∧
      program.OccursWithin (-2) [1, 1] ∧
      (program.replaceAt [1, 1] endless).at? [1, 1] = some endless ∧
      outcome .lit ((endless.evaluate { iterations := 50 }).run {}) =
        .error (.outOfSteps .value 50) ∧
      outcome .lit (((program.replaceAt [1, 1] endless).evaluate { iterations := 50 }).run {}) =
        .ok (.lit (.int 6)) ∧
      (after (((program.replaceAt [1, 1] endless).evaluate { iterations := 50 }).run {})).steps =
        (after ((program.evaluate { iterations := 50 }).run {})).steps ∧
      (after (((program.replaceAt [1, 1] endless).evaluate { iterations := 50 }).run {})).betas =
        3 := by
  let twice : Expr := .lam (-1) (.binary (.strict .add) (.var (-1)) (.var (-1)))
  let program : Expr := .app twice (.app (.lam (-2) (.lit (.int 3))) (.var (-2)))
  let again : Expr := .lam (-3) (.app (.var (-3)) (.var (-3)))
  have within : program.OccursWithin (-2) [1, 1] := by
    dsimp only [program, twice]
    intro inner hat
    rcases inner with _ | ⟨_ | _ | i, _ | ⟨_ | _ | j, _ | ⟨_ | _ | k, _ | ⟨l, inner⟩⟩⟩⟩ <;>
      cases hat
    exact List.prefix_rfl
  have redex : program.at? [1] = some (.app (.lam (-2) (.lit (.int 3))) (.var (-2))) := rfl
  have hsame := evaluate_replaceAt_argument redex within (.app again again) { iterations := 50 }
  have value : outcome .lit ((program.evaluate { iterations := 50 }).run {}) =
      .ok (.lit (.int 6)) := by
    decide +kernel
  have counts : (after ((program.evaluate { iterations := 50 }).run {})).betas = 3 := by
    decide +kernel
  exact ⟨program, .app again again, rfl, within, rfl, by decide +kernel, hsame.1.trans value,
    hsame.2.1, hsame.2.2.trans counts⟩

end Lambda94
