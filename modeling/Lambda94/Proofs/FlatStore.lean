import Lambda94.Proofs.CallByName
import Lambda94.Proofs.MachineRun

/-!
# The flat store and substitution

A machine has one place for the argument of a function, however often the function is applied.  An
expression in progress `Stands` for the closed expression that it becomes when every variable is
replaced by its argument, the variables of that by theirs, and so on.

A binding clobbers if something that is still needed stands for something else afterwards.  That
takes a binder with another argument, which something needed reaches: `Binding.Clobbers.reaches`.  A
run without such a binding simulates evaluation by name: `Run.simulated`.
-/

open Lambda94.Expr

namespace Lambda94

/-! ### Standing for a closed expression -/

/-- Unfolding the arguments of the store in an expression ends with a closed expression. -/
inductive Stands (store : Store) : Expr → Expr → Prop
  | intro {expr : Expr} {σ : Int → Expr} (ground : Ground σ)
    (bound : ∀ id ∈ expr.freeVars, ∃ arg, store[id]? = some arg)
    (below : ∀ id ∈ expr.freeVars, ∀ arg, store[id]? = some arg → Stands store arg (σ id)) :
    Stands store expr (expr.subst σ)

namespace Stands

variable {store store' : Store} {expr left right arg body condition thenBranch elseBranch : Expr}
  {form form' : Expr} {binder id : Int}

theorem closed (h : Stands store expr form) : form.Closed := by
  induction h with
  | intro _ bound _ ih =>
    refine closed_iff.2 fun id hid => ?_
    obtain ⟨id', mem, hmem⟩ := mem_freeVars_subst.1 hid
    obtain ⟨arg, harg⟩ := bound id' mem
    exact closed_iff.1 (ih id' mem arg harg) id hmem

/-- An expression stands for one closed expression at most. -/
theorem unique (h : Stands store expr form) (h' : Stands store expr form') : form = form' := by
  induction h generalizing form' with
  | intro _ bound _ ih =>
    cases h' with
    | intro _ _ below' =>
      refine subst_congr fun id mem => ?_
      obtain ⟨arg, harg⟩ := bound id mem
      exact ih id mem arg harg (below' id mem arg harg)

theorem of_closed (h : expr.Closed) : Stands store expr expr := by
  have hnone : ∀ id, id ∉ expr.freeVars := closed_iff.1 h
  have hstands : Stands store expr (expr.subst .var) :=
    .intro ground_var (fun id mem => absurd mem (hnone id)) fun id mem => absurd mem (hnone id)
  rwa [subst_var] at hstands

theorem eq_of_closed (h : Stands store expr form) (closed : expr.Closed) : form = expr :=
  h.unique (of_closed closed)

/-! ### What the parts of an expression stand for -/

theorem of_subset {part : Expr} {σ : Int → Expr} (ground : Ground σ)
    (bound : ∀ id ∈ expr.freeVars, ∃ arg, store[id]? = some arg)
    (below : ∀ id ∈ expr.freeVars, ∀ arg, store[id]? = some arg → Stands store arg (σ id))
    (subset : part.freeVars ⊆ expr.freeVars) : Stands store part (part.subst σ) :=
  .intro ground (fun id mem => bound id (subset mem)) fun id mem => below id (subset mem)

/-- A variable stands for what its argument stands for. -/
theorem of_var (h : Stands store (.var id) form) :
    ∃ arg, store[id]? = some arg ∧ Stands store arg form := by
  cases h with
  | intro _ bound below =>
    have mem : id ∈ (Expr.var id).freeVars := List.mem_singleton_self id
    obtain ⟨arg, harg⟩ := bound id mem
    exact ⟨arg, harg, below id mem arg harg⟩

theorem of_unary {op : UnaryOp} (h : Stands store (.unary op expr) form) :
    ∃ form', form = .unary op form' ∧ Stands store expr form' := by
  cases h with
  | intro ground bound below => exact ⟨_, rfl, .intro ground bound below⟩

theorem unary (op : UnaryOp) (h : Stands store expr form) :
    Stands store (.unary op expr) (.unary op form) := by
  cases h with
  | @intro _ σ ground bound below => exact @intro store (.unary op expr) σ ground bound below

theorem of_binary {op : BinaryOp} (h : Stands store (.binary op left right) form) :
    ∃ form₁ form₂, form = .binary op form₁ form₂ ∧ Stands store left form₁ ∧
      Stands store right form₂ := by
  cases h with
  | intro ground bound below =>
    exact ⟨_, _, rfl, of_subset ground bound below (List.subset_append_left _ _),
      of_subset ground bound below (List.subset_append_right _ _)⟩

theorem binary (op : BinaryOp) (h : Stands store left form) (h' : Stands store right form') :
    Stands store (.binary op left right) (.binary op form form') := by
  cases h with
  | @intro _ σ₁ ground₁ bound₁ below₁ =>
  cases h' with
  | @intro _ σ₂ ground₂ bound₂ below₂ =>
    -- Where both sides have a variable, it stands for the same expression in both.
    let σ : Int → Expr := fun id => if id ∈ left.freeVars then σ₁ id else σ₂ id
    have hleft : ∀ id ∈ left.freeVars, σ id = σ₁ id := fun id mem => if_pos mem
    have hright : ∀ id ∈ right.freeVars, σ id = σ₂ id := by
      intro id mem
      by_cases mem' : id ∈ left.freeVars
      · obtain ⟨arg, harg⟩ := bound₁ id mem'
        rw [hleft id mem']
        exact (below₁ id mem' arg harg).unique (below₂ id mem arg harg)
      · exact if_neg mem'
    have ground : Ground σ := by
      intro id
      by_cases mem : id ∈ left.freeVars
      · rw [hleft id mem]
        exact ground₁ id
      · rw [show σ id = σ₂ id from if_neg mem]
        exact ground₂ id
    rw [← subst_congr hleft, ← subst_congr hright]
    refine @intro store (.binary op left right) σ ground (fun id mem => ?_)
      fun id mem arg harg => ?_
    · rcases List.mem_append.1 mem with mem | mem
      · exact bound₁ id mem
      · exact bound₂ id mem
    · rcases List.mem_append.1 mem with mem | mem
      · exact hleft id mem ▸ below₁ id mem arg harg
      · exact hright id mem ▸ below₂ id mem arg harg

theorem of_cond (h : Stands store (.cond condition thenBranch elseBranch) form) :
    ∃ form₁ form₂ form₃, form = .cond form₁ form₂ form₃ ∧ Stands store condition form₁ ∧
      Stands store thenBranch form₂ ∧ Stands store elseBranch form₃ := by
  cases h with
  | intro ground bound below =>
    refine ⟨_, _, _, rfl, of_subset ground bound below ?_, of_subset ground bound below ?_,
      of_subset ground bound below ?_⟩ <;>
    · intro id mem
      simp [freeVars, mem]

/-- A function stands for a function.  With an argument bound to its binder, the body stands for the
body of that function with the argument put in. -/
theorem of_lam (h : Stands store (.lam binder body) form) (hbinder : store[binder]? = some arg)
    (harg : Stands store arg form') :
    ∃ body', form = .lam binder body' ∧ Stands store body (body'.instantiate binder form') := by
  cases h with
  | @intro _ σ ground bound below =>
    refine ⟨_, subst_lam_of_ground ground binder body, ?_⟩
    rw [instantiate_subst ground binder harg.closed]
    refine .intro (ground.update_closed binder harg.closed) (fun id mem => ?_)
      fun id mem arg' hid => ?_
    · by_cases hne : id = binder
      · exact ⟨arg, hne ▸ hbinder⟩
      · exact bound id (mem_freeVars_lam.2 ⟨mem, hne⟩)
    · by_cases hne : id = binder
      · obtain rfl : arg = arg' := Option.some.inj (hbinder.symm.trans (hne ▸ hid))
        rw [hne, Function.update_self]
        exact harg
      · rw [Function.update_of_ne hne]
        exact below id (mem_freeVars_lam.2 ⟨mem, hne⟩) arg' hid

end Stands

/-! ### Bindings that clobber -/

/-- The expression refers to the variable, or the argument of one of its variables reaches it. -/
inductive Expr.Reaches (store : Store) : Expr → Int → Prop
  | free {expr : Expr} {id : Int} (mem : id ∈ expr.freeVars) : Reaches store expr id
  | through {expr arg : Expr} {id id' : Int} (mem : id ∈ expr.freeVars)
    (bound : store[id]? = some arg) (rest : Reaches store arg id') : Reaches store expr id'

/-- What reaches no variable whose argument changes stands for what it stood for. -/
theorem Stands.of_agree {store store' : Store} {expr form : Expr} (h : Stands store expr form)
    (agree : ∀ id, expr.Reaches store id → store'[id]? = store[id]?) : Stands store' expr form := by
  induction h with
  | intro ground bound _ ih =>
    refine .intro ground (fun id mem => ?_) fun id mem arg hid => ?_
    · rw [agree id (.free mem)]
      exact bound id mem
    · rw [agree id (.free mem)] at hid
      exact ih id mem arg hid fun id' hreach => agree id' (.through mem hid hreach)

theorem Stands.bound_of_reaches {store : Store} {expr form : Expr} {id : Int}
    (h : Stands store expr form) (hreach : expr.Reaches store id) :
    ∃ arg, store[id]? = some arg := by
  induction hreach generalizing form with
  | free mem => cases h with
    | intro _ bound _ => exact bound _ mem
  | through mem hid _ ih => cases h with
    | intro _ _ below => exact ih (below _ mem _ hid)

namespace Binding

/-- The store after the binding. -/
def after (binding : Binding) : Store := binding.store.insert binding.binder binding.arg

/-- What is still to be used: the argument, the function, and what waits for the loops in
progress. -/
def needed (binding : Binding) : List Expr :=
  binding.arg :: .lam binding.binder binding.body :: binding.pending

/-- Something that is still needed stands for something else after the binding, or for nothing. -/
def Clobbers (binding : Binding) : Prop :=
  ∃ expr ∈ binding.needed, ∃ form, Stands binding.store expr form ∧
    ¬ Stands binding.after expr form

variable {binding : Binding}

theorem Clobbers.reaches (h : binding.Clobbers) :
    ∃ old, binding.store[binding.binder]? = some old ∧ old ≠ binding.arg ∧
      ∃ expr ∈ binding.needed, expr.Reaches binding.store binding.binder := by
  obtain ⟨expr, needed, form, hstands, hnot⟩ := h
  obtain ⟨id, hreach, hchanged⟩ : ∃ id, expr.Reaches binding.store id ∧
      binding.after[id]? ≠ binding.store[id]? := by
    by_contra hnone
    simp only [not_exists, not_and, not_not] at hnone
    exact hnot (hstands.of_agree hnone)
  obtain rfl : id = binding.binder := by
    by_contra hne
    exact hchanged (Store.getElem?_insert_of_ne _ _ hne)
  obtain ⟨old, hold⟩ := hstands.bound_of_reaches hreach
  -- The same argument again would not have changed the store at the binder.
  refine ⟨old, hold, fun hsame => hchanged ?_, expr, needed, hreach⟩
  rw [after, Store.getElem?_insert_self, hold, hsame]

theorem Clobbers.overwrites (h : binding.Clobbers) : binding.Overwrites := by
  obtain ⟨old, hold, -⟩ := h.reaches
  rw [Overwrites, Std.TreeMap.mem_iff_isSome_getElem?, hold, Option.isSome_some]

theorem not_clobbers_of_closed (closed : ∀ expr ∈ binding.needed, expr.Closed) :
    ¬ binding.Clobbers := by
  rintro ⟨expr, needed, form, hstands, hnot⟩
  have hclosed := closed expr needed
  rw [hstands.eq_of_closed hclosed] at hnot
  exact hnot (.of_closed hclosed)

theorem stands_after (harmless : ¬ binding.Clobbers) {expr form : Expr}
    (needed : expr ∈ binding.needed) (h : Stands binding.store expr form) :
    Stands binding.after expr form := by
  by_contra hnot
  exact harmless ⟨expr, needed, form, h, hnot⟩

end Binding

/-! ### Runs that do not clobber -/

/-- What a task may end with, if its expression stands for `form`: an expression that stands for one
that evaluates as `form` does, or an error that `form` evaluates to, unless it is about the
limits. -/
def Agrees (form : Expr) (store : Store) : Except EvalError Expr → Prop
  | .ok next => ∃ form', Stands store next form' ∧
      ∀ result, form'.Evaluates result → form.Evaluates result
  | .error error => error.isNonTermination = false → form.Evaluates (.error error)

/-- The expression of a task. -/
def Task.expr : Task → Expr
  | .step expr | .loop _ expr => expr

/-- A task, whose expression stands for `form`, leaves what waits for it alone, and its outcome
agrees with `form`. -/
structure Simulated (pending : List Expr) (store : Store) (form : Expr) (store' : Store)
    (outcome : Except EvalError Expr) : Prop where
  kept : ∀ waiting ∈ pending, ∀ form, Stands store waiting form → Stands store' waiting form
  agrees : Agrees form store' outcome

theorem Agrees.of_result {form : Expr} {store : Store} {x : Except EvalError Value}
    (h : form.Evaluates (x.map .value)) : Agrees form store (x.map .lit) := by
  cases x with
  | error error => exact fun _ => h
  | ok value =>
    refine ⟨.lit value, .of_closed rfl, fun result hresult => ?_⟩
    cases hresult
    exact h

namespace Simulated

variable {pending : List Expr} {next arg body waiting thenBranch elseBranch : Expr}
  {form form₁ form₂ form₃ : Expr} {store store₁ store₂ : Store} {outcome : Except EvalError Expr}
  {error : EvalError} {value a b : Value} {binder id : Int}

theorem of_same (agrees : Agrees form store outcome) : Simulated pending store form store outcome :=
  ⟨fun _ _ _ h => h, agrees⟩

theorem head (h : Simulated (waiting :: pending) store form store₁ outcome)
    (hwaiting : Stands store waiting form₁) : Stands store₁ waiting form₁ :=
  h.kept waiting List.mem_cons_self form₁ hwaiting

theorem tail (h : Simulated (waiting :: pending) store form store₁ outcome) :
    Simulated pending store form store₁ outcome where
  kept waiting hwaiting := h.kept waiting (.tail _ hwaiting)
  agrees := h.agrees

theorem evaluates_error (h : Simulated pending store form store₁ (.error error))
    (notLimit : error.isNonTermination = false) : form.Evaluates (.error error) :=
  h.agrees notLimit

theorem evaluates_value (h : Simulated pending store form store₁ (.ok (.lit value))) :
    form.Evaluates (.ok (.value value)) := by
  obtain ⟨form', hstands, heval⟩ := h.agrees
  rw [hstands.eq_of_closed rfl] at heval
  exact heval _ (.lit value)

/-- One task after another. -/
theorem trans (h : Simulated pending store form store₁ (.ok next))
    (h' : ∀ form', Stands store₁ next form' → Simulated pending store₁ form' store₂ outcome) :
    Simulated pending store form store₂ outcome := by
  obtain ⟨form', hnext, heval⟩ := h.agrees
  have hrest := h' form' hnext
  refine ⟨fun waiting hwaiting form₁ h₁ => ?_, ?_⟩
  · exact hrest.kept waiting hwaiting form₁ (h.kept waiting hwaiting form₁ h₁)
  · cases outcome with
    | error error => exact fun notLimit => heval _ (hrest.evaluates_error notLimit)
    | ok last =>
      obtain ⟨form'', hlast, heval'⟩ := hrest.agrees
      exact ⟨form'', hlast, fun result hresult => heval _ (heval' _ hresult)⟩

theorem unary (op : UnaryOp) (h : Simulated pending store form store₁ outcome) :
    Simulated pending store (.unary op form) store₁ (outcome.map (.unary op)) where
  kept := h.kept
  agrees := by
    cases outcome with
    | error error => exact fun notLimit => .unaryError (h.evaluates_error notLimit)
    | ok next =>
      obtain ⟨form', hnext, heval⟩ := h.agrees
      refine ⟨.unary op form', hnext.unary op, fun result hresult => ?_⟩
      cases hresult with
      | unary hvalue => exact .unary (heval _ hvalue)
      | unaryError herror => exact .unaryError (heval _ herror)

theorem strict (op : StrictOp) (h : Simulated pending store form₁ store₁ (.ok (.lit a)))
    (h' : Simulated pending store₁ form₂ store₂ (.ok (.lit b))) :
    Simulated pending store (.binary (.strict op) form₁ form₂) store₂ ((op.eval a b).map .lit) where
  kept waiting hwaiting form hform :=
    h'.kept waiting hwaiting form (h.kept waiting hwaiting form hform)
  agrees := .of_result (.strict h.evaluates_value h'.evaluates_value)

theorem strictLeft (op : StrictOp) (h : Simulated pending store form₁ store₁ (.error error)) :
    Simulated pending store (.binary (.strict op) form₁ form₂) store₁ (.error error) where
  kept := h.kept
  agrees notLimit := .strictLeft (h.evaluates_error notLimit)

theorem strictRight (op : StrictOp) (h : Simulated pending store form₁ store₁ (.ok (.lit a)))
    (h' : Simulated pending store₁ form₂ store₂ (.error error)) :
    Simulated pending store (.binary (.strict op) form₁ form₂) store₂ (.error error) where
  kept waiting hwaiting form hform :=
    h'.kept waiting hwaiting form (h.kept waiting hwaiting form hform)
  agrees notLimit := .strictRight h.evaluates_value (h'.evaluates_error notLimit)

/-- The step that binds: after it the body stands for the body with the argument put in. -/
theorem apply (h : Simulated (arg :: pending) store form₁ store₁ (.ok (.lam binder body)))
    (harg : Stands store arg form₂)
    (harmless : ¬ Binding.Clobbers ⟨pending, store₁, binder, body, arg⟩) :
    Simulated pending store (.app form₁ form₂) (store₁.insert binder arg) (.ok body) := by
  refine ⟨fun waiting hwaiting form hform => ?_, ?_⟩
  · have hmem : waiting ∈ Binding.needed ⟨pending, store₁, binder, body, arg⟩ :=
      .tail _ (.tail _ hwaiting)
    exact Binding.stands_after harmless hmem (h.tail.kept waiting hwaiting form hform)
  · -- The argument and the function are needed too, so they stand for the same in the new store.
    obtain ⟨function, hfunction, heval⟩ := h.agrees
    have harg₂ := Binding.stands_after harmless List.mem_cons_self (h.head harg)
    have hfunction₂ := Binding.stands_after harmless (.tail _ List.mem_cons_self) hfunction
    obtain ⟨body', rfl, hbody⟩ := hfunction₂.of_lam (Store.getElem?_insert_self _ _ _) harg₂
    exact ⟨_, hbody, fun result hresult => .apply (heval _ (.lam _ _)) hresult⟩

theorem applyVar (h : Simulated (arg :: pending) store form₁ store₁ (.ok (.var id)))
    (harg : Stands store arg form₂) :
    Simulated pending store (.app form₁ form₂) store₁ (.ok (.app (.var id) arg)) where
  kept := h.tail.kept
  agrees := by
    obtain ⟨head, hhead, heval⟩ := h.agrees
    refine ⟨.app head form₂, hhead.binary .apply (h.head harg), fun result hresult => ?_⟩
    cases hresult with
    | apply hfn hbody => exact .apply (heval _ hfn) hbody
    | applyValue hfn => exact .applyValue (heval _ hfn)
    | applyError hfn => exact .applyError (heval _ hfn)

theorem applyValue (h : Simulated pending store form₁ store₁ (.ok (.lit value))) :
    Simulated pending store (.app form₁ form₂) store₁ (.error (.applyNonFunction value)) where
  kept := h.kept
  agrees _ := .applyValue h.evaluates_value

theorem applyError (h : Simulated pending store form₁ store₁ (.error error)) :
    Simulated pending store (.app form₁ form₂) store₁ (.error error) where
  kept := h.kept
  agrees notLimit := .applyError (h.evaluates_error notLimit)

theorem cond {b : Bool}
    (h : Simulated (thenBranch :: elseBranch :: pending) store form₁ store₁ (.ok (.lit (.bool b))))
    (hthen : Stands store thenBranch form₂) (helse : Stands store elseBranch form₃) :
    Simulated pending store (.cond form₁ form₂ form₃) store₁
      (.ok (if b then thenBranch else elseBranch)) where
  kept := h.tail.tail.kept
  agrees := by
    cases b with
    | true => exact ⟨form₂, h.head hthen, fun _ hresult => .cond h.evaluates_value hresult⟩
    | false => exact ⟨form₃, h.tail.head helse, fun _ hresult => .cond h.evaluates_value hresult⟩

theorem condOther (h : Simulated pending store form₁ store₁ (.ok (.lit value)))
    (other : value.kind ≠ .boolean) :
    Simulated pending store (.cond form₁ form₂ form₃) store₁
      (.error (.nonBooleanCondition value)) where
  kept := h.kept
  agrees _ := .condOther h.evaluates_value other

theorem condError (h : Simulated pending store form₁ store₁ (.error error)) :
    Simulated pending store (.cond form₁ form₂ form₃) store₁ (.error error) where
  kept := h.kept
  agrees notLimit := .condError (h.evaluates_error notLimit)

end Simulated

/-- A run without a clobbering binding simulates evaluation by name. -/
theorem Run.simulated {pending : List Expr} {task : Task} {store store' : Store}
    {log : List Binding} {outcome : Except EvalError Expr}
    (h : Run pending task store log outcome store')
    (harmless : ∀ binding ∈ log, ¬ binding.Clobbers) {form : Expr}
    (hform : Stands store task.expr form) : Simulated pending store form store' outcome := by
  -- Each rule has its lemma; an operand that waits during a loop is kept, so that its own run starts
  -- from what it stood for at the beginning of the step.
  induction h generalizing form with
  | lit value => exact .of_same ⟨form, hform, fun _ hresult => hresult⟩
  | lam binder body => exact .of_same ⟨form, hform, fun _ hresult => hresult⟩
  | @var _ _ _ arg bound =>
    obtain ⟨arg', bound', harg⟩ := hform.of_var
    obtain rfl : arg = arg' := Option.some.inj (bound.symm.trans bound')
    exact .of_same ⟨form, harg, fun _ hresult => hresult⟩
  | varError unbound =>
    obtain ⟨arg, bound, -⟩ := hform.of_var
    rw [unbound] at bound
    cases bound
  | unaryValue op value =>
    obtain ⟨form', rfl, hvalue⟩ := hform.of_unary
    rw [hvalue.eq_of_closed rfl]
    exact .of_same (.of_result (.unary (.lit value)))
  | unary op _ _ ih =>
    obtain ⟨form', rfl, hoperand⟩ := hform.of_unary
    exact (ih harmless hoperand).unary op
  | strict op _ _ ih ih' =>
    obtain ⟨harmless₁, harmless₂⟩ := List.forall_mem_append.1 harmless
    obtain ⟨form₁, form₂, rfl, hleft, hright⟩ := hform.of_binary
    have h₁ := ih harmless₁ hleft
    exact h₁.tail.strict op (ih' harmless₂ (h₁.head hright))
  | strictLeft op _ ih =>
    obtain ⟨form₁, form₂, rfl, hleft, -⟩ := hform.of_binary
    exact (ih harmless hleft).tail.strictLeft op
  | strictRight op _ _ ih ih' =>
    obtain ⟨harmless₁, harmless₂⟩ := List.forall_mem_append.1 harmless
    obtain ⟨form₁, form₂, rfl, hleft, hright⟩ := hform.of_binary
    have h₁ := ih harmless₁ hleft
    exact h₁.tail.strictRight op (ih' harmless₂ (h₁.head hright))
  | apply _ ih =>
    obtain ⟨hlog, hlast⟩ := List.forall_mem_append.1 harmless
    obtain ⟨form₁, form₂, rfl, hfn, harg⟩ := hform.of_binary
    exact (ih hlog hfn).apply harg (hlast _ (List.mem_singleton_self _))
  | applyVar _ ih =>
    obtain ⟨form₁, form₂, rfl, hfn, harg⟩ := hform.of_binary
    exact (ih harmless hfn).applyVar harg
  | applyValue _ ih =>
    obtain ⟨form₁, form₂, rfl, hfn, -⟩ := hform.of_binary
    exact (ih harmless hfn).tail.applyValue
  | applyError _ ih =>
    obtain ⟨form₁, form₂, rfl, hfn, -⟩ := hform.of_binary
    exact (ih harmless hfn).tail.applyError
  | cond _ ih =>
    obtain ⟨form₁, form₂, form₃, rfl, hcondition, hthen, helse⟩ := hform.of_cond
    exact (ih harmless hcondition).cond hthen helse
  | condOther _ other ih =>
    obtain ⟨form₁, form₂, form₃, rfl, hcondition, -, -⟩ := hform.of_cond
    exact (ih harmless hcondition).tail.tail.condOther other
  | condError _ ih =>
    obtain ⟨form₁, form₂, form₃, rfl, hcondition, -, -⟩ := hform.of_cond
    exact (ih harmless hcondition).tail.tail.condError
  | limit target expr limited =>
    refine .of_same fun notLimit => ?_
    rw [limited] at notLimit
    cases notLimit
  | stepError _ ih => exact ih harmless hform
  | reach _ _ ih => exact ih harmless hform
  | next _ _ _ ih ih' =>
    obtain ⟨harmless₁, harmless₂⟩ := List.forall_mem_append.1 harmless
    exact (ih harmless₁ hform).trans fun form' hnext => ih' harmless₂ hnext

end Lambda94
