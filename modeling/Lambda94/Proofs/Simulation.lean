import Lambda94.Proofs.MachineRun

/-!
# Two machines side by side

A computation simulates another one if it ends as that does, with related results and on related
machines, wherever the first one does not give up because of its limits.  Simulation goes through
sequences and loops, and `simulates_stepWith` says that it goes through a step: two expressions that
look alike, with related parts, step to related expressions if the loops that they start simulate
each other.  With the same limits on both sides, two computations may also end together
(`EvalM.Together`): then the limits end both of them or neither.

The relations are parameters.  A relation between expressions is to be a congruence
(`Expr.Congruence`); one between machines is to relate the arguments and to survive what a step does
to the machine (`Couples`), and it may change where a loop begins and ends (`Encloses`).
-/

namespace Lambda94

variable {E : Expr → Expr → Prop} {R : Machine → Machine → Prop}

/-! ### Limits in order -/

instance : LE Limits where
  le limits limits' := limits.iterations ≤ limits'.iterations ∧ limits.depth ≤ limits'.depth ∧
    limits.frames ≤ limits'.frames

instance (limits limits' : Limits) : Decidable (limits ≤ limits') :=
  inferInstanceAs (Decidable (_ ∧ _ ∧ _))

/-! ### Related results -/

/-- Head normal forms of one shape; bodies of functions are related. -/
inductive HeadNormal.Rel (E : Expr → Expr → Prop) : HeadNormal → HeadNormal → Prop
  | lit (value : Value) : Rel E (.lit value) (.lit value)
  | lam (binder : Int) {body body' : Expr} (bodies : E body body') :
    Rel E (.lam binder body) (.lam binder body')
  | var (id : Int) : Rel E (.var id) (.var id)

/-- Loops return the same value, or related head normal forms. -/
def Target.Rel (E : Expr → Expr → Prop) : (target : Target) → target.Result → target.Result → Prop
  | .value => fun value value' : Value => value = value'
  | .headNormal => HeadNormal.Rel E

/-- A value as the result of a loop. -/
def Target.ofValue : (target : Target) → Value → target.Result
  | .value => fun value => value
  | .headNormal => HeadNormal.lit

theorem Target.reach?_lit (target : Target) (value : Value) :
    target.reach? (.lit value) = some (target.ofValue value) := by
  cases target <;> rfl

theorem Target.rel_ofValue (target : Target) (value : Value) :
    target.Rel E (target.ofValue value) (target.ofValue value) := by
  cases target with
  | value => exact rfl
  | headNormal => exact .lit value

/-- The second computation ends as the first does, unless the limits have ended the first. -/
inductive EvalM.Ends {α β : Type} (R : Machine → Machine → Prop) (S : α → β → Prop) :
    EStateM.Result EvalError Machine α → EStateM.Result EvalError Machine β → Prop
  | ok {a : α} {b : β} {m m' : Machine} (results : S a b) (machines : R m m') :
    Ends R S (.ok a m) (.ok b m')
  | error {m m' : Machine} (error : EvalError) (machines : R m m') :
    Ends R S (.error error m) (.error error m')
  | limit {error : EvalError} (m : Machine) (limited : error.isNonTermination = true)
    (result : EStateM.Result EvalError Machine β) : Ends R S (.error error m) result

namespace EvalM

/-- On related machines, the second computation ends as the first does. -/
def Simulates {α β : Type} (R : Machine → Machine → Prop) (S : α → β → Prop) (x : EvalM α)
    (y : EvalM β) : Prop := ∀ m m', R m m' → Ends R S (x.run m) (y.run m')

section

variable {α α' β β' : Type} {S : α → α' → Prop} {T : β → β' → Prop}

theorem Simulates.pure {a : α} {a' : α'} (h : S a a') :
    Simulates R S (Pure.pure a) (Pure.pure a') := fun _ _ hm => .ok h hm

theorem Simulates.throw (error : EvalError) :
    Simulates R S (MonadExcept.throw error) (MonadExcept.throw error) :=
  fun _ _ hm => .error error hm

variable {r : EStateM.Result EvalError Machine α'} {m : Machine}

theorem Ends.of_ok {a : α} (h : Ends R S (.ok a m) r) :
    ∃ a' m', r = .ok a' m' ∧ S a a' ∧ R m m' := by
  cases h with
  | ok results machines => exact ⟨_, _, rfl, results, machines⟩

/-- An error that is not about the limits is that of the second computation too. -/
theorem Ends.of_error {error : EvalError} (h : Ends R S (.error error m : EStateM.Result _ _ α) r)
    (settled : error.isNonTermination = false) : ∃ m', r = .error error m' ∧ R m m' := by
  cases h with
  | error _ machines => exact ⟨_, rfl, machines⟩
  | limit _ limited =>
    rw [limited] at settled
    cases settled

/-- Ending alike goes on with what comes next, where another relation between machines may hold; an
error is passed on as it is. -/
theorem Ends.bind {R' : Machine → Machine → Prop} {x : EvalM α} {y : EvalM α'} {f : α → EvalM β}
    {g : α' → EvalM β'} {m m' : Machine} (h : Ends R S (x.run m) (y.run m'))
    (weaken : ∀ m m', R m m' → R' m m')
    (next : ∀ a a' m m', S a a' → R m m' → Ends R' T ((f a).run m) ((g a').run m')) :
    Ends R' T ((x >>= f).run m) ((y >>= g).run m') := by
  rw [EStateM.run_bind, EStateM.run_bind]
  generalize x.run m = r at h ⊢
  generalize y.run m' = r' at h ⊢
  cases h with
  | ok results machines => exact next _ _ _ _ results machines
  | error error machines => exact .error error (weaken _ _ machines)
  | limit m limited => exact .limit m limited _

theorem Simulates.bind {x : EvalM α} {y : EvalM α'} {f : α → EvalM β} {g : α' → EvalM β'}
    (h : Simulates R S x y) (next : ∀ a a', S a a' → Simulates R T (f a) (g a')) :
    Simulates R T (x >>= f) (y >>= g) :=
  fun m m' hm => (h m m' hm).bind (fun _ _ => id) fun a a' m m' ha => next a a' ha m m'

end

/-! ### Loops -/

/-- Two machines are related by `R` outside a loop, with `limits` on the first machine and `limits'`
on the second, and by `R'` inside it. -/
structure Encloses (limits limits' : Limits) (R R' : Machine → Machine → Prop) : Prop where
  depth : limits.depth ≤ limits'.depth
  frames : limits.frames ≤ limits'.frames
  loops {m m' : Machine} (h : R m m') : m'.loops = m.loops
  outermost {m m' : Machine} (h : R m m') (idle : m.loops = 0) :
    R' { m with remaining := limits.iterations, loops := 1 }
      { m' with remaining := limits'.iterations, loops := 1 }
  inner {m m' : Machine} (h : R m m') (busy : m.loops ≠ 0) :
    R' { m with loops := m.loops + 1 } { m' with loops := m'.loops + 1 }
  leave {m m' : Machine} (h : R' m m') :
    R { m with loops := m.loops - 1 } { m' with loops := m'.loops - 1 }

section

variable {limits limits' : Limits} {R' : Machine → Machine → Prop} {α β : Type} {S : α → β → Prop}

theorem Ends.leaveLoop {r : EStateM.Result EvalError Machine α}
    {r' : EStateM.Result EvalError Machine β} (h : Ends R' S r r')
    (leave : ∀ {m m' : Machine}, R' m m' →
      R { m with loops := m.loops - 1 } { m' with loops := m'.loops - 1 }) :
    Ends R S (EvalM.leaveLoop r) (EvalM.leaveLoop r') := by
  cases h with
  | ok results machines => exact .ok results (leave machines)
  | error error machines => exact .error error (leave machines)
  | limit m limited => exact .limit _ limited _

/-- A loop may be entered on the second machine wherever it may be on the first. -/
theorem Encloses.inLoop (hR : Encloses limits limits' R R') {x : EvalM α} {y : EvalM β}
    (h : Simulates R' S x y) : Simulates R S (EvalM.inLoop limits x) (EvalM.inLoop limits' y) := by
  intro m m' hm
  have hloops := hR.loops hm
  by_cases hidle : m.loops = 0
  · rw [run_inLoop_of_idle hidle, run_inLoop_of_idle (hloops.trans hidle)]
    exact (h _ _ (hR.outermost hm hidle)).leaveLoop hR.leave
  rcases run_inLoop_of_busy limits x hidle with ⟨error, limited, hrun⟩ | ⟨room, stack⟩
  · rw [hrun]
    exact .limit m limited _
  have room' : m'.loops < limits'.depth := hloops ▸ Nat.lt_of_lt_of_le room hR.depth
  have stack' : m'.loops < limits'.frames := hloops ▸ Nat.lt_of_lt_of_le stack hR.frames
  rw [run_inLoop_of_room hidle room stack,
    run_inLoop_of_room (fun h' => hidle (hloops.symm.trans h')) room' stack']
  exact (h _ _ (hR.inner hm hidle)).leaveLoop hR.leave

end

end EvalM

/-! ### Ending together -/

namespace EvalM

section

variable {α α' β β' : Type} {R' : Machine → Machine → Prop} {S : α → α' → Prop} {T : β → β' → Prop}

/-- Both end with related results or with the same error, on related machines. -/
inductive EndTogether (R : Machine → Machine → Prop) (S : α → α' → Prop) :
    EStateM.Result EvalError Machine α → EStateM.Result EvalError Machine α' → Prop
  | ok {a : α} {a' : α'} {m m' : Machine} (results : S a a') (machines : R m m') :
    EndTogether R S (.ok a m) (.ok a' m')
  | error (error : EvalError) {m m' : Machine} (machines : R m m') :
    EndTogether R S (.error error m) (.error error m')

/-- On related machines the two computations end together. -/
def Together (R : Machine → Machine → Prop) (S : α → α' → Prop) (x : EvalM α) (y : EvalM α') :
    Prop :=
  ∀ m m', R m m' → EndTogether R S (x.run m) (y.run m')

theorem Together.pure {a : α} {a' : α'} (h : S a a') :
    Together R S (Pure.pure a) (Pure.pure a') := fun _ _ hm => .ok h hm

theorem Together.throw (error : EvalError) :
    Together R S (MonadExcept.throw error) (MonadExcept.throw error) :=
  fun _ _ hm => .error error hm

theorem Together.bind {x : EvalM α} {y : EvalM α'} {f : α → EvalM β} {g : α' → EvalM β'}
    (h : Together R S x y) (next : ∀ a a', S a a' → Together R T (f a) (g a')) :
    Together R T (x >>= f) (y >>= g) := by
  intro m m' hm
  have hx := h m m' hm
  rw [EStateM.run_bind, EStateM.run_bind]
  generalize x.run m = r at hx ⊢
  generalize y.run m' = r' at hx ⊢
  cases hx with
  | ok results machines => exact next _ _ results _ _ machines
  | error error machines => exact .error error machines

/-- What is known of the results of each computation by itself may be added. -/
theorem Together.strengthen {x : EvalM α} {y : EvalM α'} {P : α → Prop} {Q : α' → Prop}
    (h : Together R S x y) (hx : ∀ m a m₁, x.run m = .ok a m₁ → P a)
    (hy : ∀ m a m₁, y.run m = .ok a m₁ → Q a) :
    Together R (fun a a' => S a a' ∧ P a ∧ Q a') x y := by
  intro m m' hm
  have hend := h m m' hm
  have hx := hx m
  have hy := hy m'
  generalize x.run m = r at hend hx ⊢
  generalize y.run m' = r' at hend hy ⊢
  cases hend with
  | ok results machines => exact .ok ⟨results, hx _ _ rfl, hy _ _ rfl⟩ machines
  | error error machines => exact .error error machines

theorem EndTogether.leaveLoop {r : EStateM.Result EvalError Machine α}
    {r' : EStateM.Result EvalError Machine α'} (h : EndTogether R' S r r')
    (leave : ∀ {m m' : Machine}, R' m m' →
      R { m with loops := m.loops - 1 } { m' with loops := m'.loops - 1 }) :
    EndTogether R S (EvalM.leaveLoop r) (EvalM.leaveLoop r') := by
  cases h with
  | ok results machines => exact .ok results (leave machines)
  | error error machines => exact .error error (leave machines)

/-- A loop that may not be entered on one machine may not be on the other. -/
theorem Together.inLoop {limits : Limits} (hR : Encloses limits limits R R') {x : EvalM α}
    {y : EvalM α'} (h : Together R' S x y) :
    Together R S (EvalM.inLoop limits x) (EvalM.inLoop limits y) := by
  intro m m' hm
  have hloops := hR.loops hm
  by_cases hidle : m.loops = 0
  · rw [run_inLoop_of_idle hidle, run_inLoop_of_idle (hloops.trans hidle)]
    exact (h _ _ (hR.outermost hm hidle)).leaveLoop hR.leave
  have hbusy : m'.loops ≠ 0 := fun h' => hidle (hloops.symm.trans h')
  -- The limits are compared with the loops in progress, of which there are equally many.
  rw [run_inLoop_inner limits x hidle, run_inLoop_inner limits y hbusy, hloops]
  split_ifs
  · exact .error _ hm
  · exact .error _ hm
  · have hinner := h _ _ (hR.inner hm hidle)
    rw [hloops] at hinner
    exact hinner.leaveLoop hR.leave

end

end EvalM

/-! ### Steps -/

/-- A relation between expressions that goes from parts to the whole. -/
structure Expr.Congruence (E : Expr → Expr → Prop) : Prop where
  lit (value : Value) : E (.lit value) (.lit value)
  unary {operand operand' : Expr} (op : UnaryOp) (h : E operand operand') :
    E (.unary op operand) (.unary op operand')
  binary {left left' right right' : Expr} (op : BinaryOp) (hleft : E left left')
    (hright : E right right') : E (.binary op left right) (.binary op left' right')
  lam {body body' : Expr} (binder : Int) (h : E body body') :
    E (.lam binder body) (.lam binder body')
  var (id : Int) : E (.var id) (.var id)

/-- The expressions look alike to a step: they have one shape as far as the step goes, and the parts
that it leaves to loops, or leaves alone, are related. -/
inductive Expr.Alike (E : Expr → Expr → Prop) : Expr → Expr → Prop
  | lit (value : Value) : Alike E (.lit value) (.lit value)
  | unaryValue (op : UnaryOp) (value : Value) :
    Alike E (.unary op (.lit value)) (.unary op (.lit value))
  | unary (op : UnaryOp) {operand operand' : Expr} (stuck : ∀ value, operand ≠ .lit value)
    (stuck' : ∀ value, operand' ≠ .lit value) (h : Alike E operand operand') :
    Alike E (.unary op operand) (.unary op operand')
  | binary (op : BinaryOp) {left left' right right' : Expr} (hleft : E left left')
    (hright : E right right') : Alike E (.binary op left right) (.binary op left' right')
  | cond {condition condition' thenBranch thenBranch' elseBranch elseBranch' : Expr}
    (hcondition : E condition condition') (hthen : E thenBranch thenBranch')
    (helse : E elseBranch elseBranch') :
    Alike E (.cond condition thenBranch elseBranch) (.cond condition' thenBranch' elseBranch')
  | lam (binder : Int) {body body' : Expr} (h : E body body') :
    Alike E (.lam binder body) (.lam binder body')
  | var (id : Int) : Alike E (.var id) (.var id)

/-- A unary operator does not change whether its operands look alike. -/
theorem Expr.Alike.under {operand operand' : Expr} (op : UnaryOp) (h : Alike E operand operand') :
    Alike E (.unary op operand) (.unary op operand') := by
  have h' := h
  cases h with
  | lit value => exact .unaryValue op value
  | _ => exact .unary op nofun nofun h'

namespace EvalM

/-- What a relation between machines has to keep while related expressions step on them. -/
structure Couples (E : Expr → Expr → Prop) (R : Machine → Machine → Prop) : Prop where
  arguments {m m' : Machine} (h : R m m') (id : Int) :
    Option.Rel E m.bindings[id]? m'.bindings[id]?
  countStep {m m' : Machine} (h : R m m') :
    R { m with steps := m.steps + 1 } { m' with steps := m'.steps + 1 }
  bindArg {m m' : Machine} (h : R m m') (binder : Int) {arg arg' : Expr} (args : E arg arg') :
    R { m with bindings := m.bindings.insert binder arg, betas := m.betas + 1 }
      { m' with bindings := m'.bindings.insert binder arg', betas := m'.betas + 1 }

/-- The same bindings have the same arguments. -/
theorem arguments_of_bindings_eq {m m' : Machine} (h : m'.bindings = m.bindings) (id : Int) :
    Option.Rel Eq m.bindings[id]? m'.bindings[id]? := by
  rw [h]
  cases m.bindings[id]? with
  | none => exact .none
  | some arg => exact .some rfl

theorem Couples.counting {α β : Type} {S : α → β → Prop} (hR : Couples E R)
    {x : EvalM α} {y : EvalM β} (h : Simulates R S x y) :
    Simulates R S (do EvalM.countStep; x) (do EvalM.countStep; y) :=
  fun _ _ hm => h _ _ (hR.countStep hm)

theorem Couples.lookup (hR : Couples E R) (id : Int) :
    Simulates R E (EvalM.lookup id) (EvalM.lookup id) := by
  intro m m' hm
  rw [run_lookup, run_lookup]
  have hargs := hR.arguments hm id
  generalize m.bindings[id]? = arg at hargs
  generalize m'.bindings[id]? = arg' at hargs
  cases hargs with
  | none => exact .error _ hm
  | some h => exact .ok h hm

theorem simulates_ofExcept (congr : Expr.Congruence E) (x : Except EvalError Value) :
    Simulates R E (do return .lit (← ofExcept x)) (do return .lit (← ofExcept x)) := by
  cases x with
  | ok value => exact fun _ _ hm => .ok (congr.lit value) hm
  | error error => exact fun _ _ hm => .error error hm

/-- Expressions that look alike step to related expressions, if the loops that the step starts
simulate each other. -/
theorem simulates_stepWith (congr : Expr.Congruence E) (hR : Couples E R)
    {run run' : (target : Target) → Expr → EvalM target.Result}
    (hrun : ∀ target expr expr', E expr expr' →
      Simulates R (target.Rel E) (run target expr) (run' target expr'))
    {expr expr' : Expr} (h : expr.Alike E expr') :
    Simulates R E (expr.stepWith run) (expr'.stepWith run') := by
  induction h with
  | lit value => exact hR.counting (.pure (congr.lit value))
  | lam binder h => exact hR.counting (.pure (congr.lam binder h))
  | var id => exact hR.counting (hR.lookup id)
  | unaryValue op value => exact hR.counting (simulates_ofExcept congr _)
  | unary op stuck stuck' _ ih =>
    rw [Expr.stepWith_unary op stuck, Expr.stepWith_unary op stuck']
    exact hR.counting (ih.bind fun _ _ hnext => .pure (congr.unary op hnext))
  | @binary op left left' right right' hleft hright =>
    cases op with
    | strict op =>
      refine hR.counting ((hrun .value left left' hleft).bind fun a a' ha => ?_)
      obtain rfl : a = a' := ha
      refine (hrun .value right right' hright).bind fun b b' hb => ?_
      obtain rfl : b = b' := hb
      exact simulates_ofExcept congr _
    | apply =>
      refine hR.counting ((hrun .headNormal left left' hleft).bind fun head head' hhead => ?_)
      cases hhead with
      | lit value => exact .throw _
      | lam binder bodies => exact fun _ _ hm => .ok bodies (hR.bindArg hm binder hright)
      | var id => exact .pure (congr.binary .apply (congr.var id) hright)
  | @cond condition condition' _ _ _ _ hcondition hthen helse =>
    refine hR.counting ((hrun .value condition condition' hcondition).bind fun a a' ha => ?_)
    obtain rfl : a = a' := ha
    cases a with
    | bool b =>
      cases b with
      | true => exact .pure hthen
      | false => exact .pure helse
    | str s => exact .throw _
    | int n => exact .throw _

end EvalM

end Lambda94
