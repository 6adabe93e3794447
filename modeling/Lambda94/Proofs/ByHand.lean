import Lambda94.Proofs.Limits
import Lambda94.Proofs.Moves

/-!
# Evaluation by hand

Whoever steps an expression by hand sees what the outermost loop of an evaluation goes through, and
may at any time have loops do the rest: `drive_of_evaluate`.

By hand there is no outermost loop.  A loop that a step starts is an outermost one itself, with a
full budget and one loop less around it than in the evaluation, so the two machines agree up to the
budget and the loops in progress (`Machine.Shallower`).  What is left of the evaluation from an
expression on is a path (`Passes`), and a machine that is driven by hand stays on the path
(`Underway`).
-/

namespace Lambda94

open EvalM

variable {limits : Limits}

/-! ### Fewer loops, more budget -/

/-- The machines have bound the same arguments.  On the second there are `loops` loops in progress,
on the first `outer` more; inside a loop, the second has no less of the budget. -/
structure Machine.Shallower (limits : Limits) (outer loops : Nat) (m m' : Machine) : Prop where
  bindings : m'.bindings = m.bindings
  betas : m'.betas = m.betas
  loops_first : m.loops = loops + outer
  loops_second : m'.loops = loops
  within : m.remaining ≤ limits.iterations
  remaining : loops ≠ 0 → m.remaining ≤ m'.remaining

namespace Machine.Shallower

variable {outer loops : Nat} {m m' : Machine}

theorem withTrace (h : m.Shallower limits outer loops m') (trace trace' : List Expr) :
    Shallower limits outer loops { m with trace } { m' with trace := trace' } := { h with }

/-- A step that by hand is not paid for. -/
theorem pay_first (h : m.Shallower limits outer 0 m') :
    Shallower limits outer 0 { m with remaining := m.remaining - 1 } m' :=
  { h with
    within := Nat.le_trans (Nat.sub_le _ _) h.within
    remaining := fun h => absurd rfl h }

theorem pay (h : m.Shallower limits outer (loops + 1) m') :
    Shallower limits outer (loops + 1) { m with remaining := m.remaining - 1 }
      { m' with remaining := m'.remaining - 1 } :=
  { h with
    within := Nat.le_trans (Nat.sub_le _ _) h.within
    remaining := fun _ => Nat.sub_le_sub_right (h.remaining (Nat.succ_ne_zero loops)) 1 }

theorem funds (h : m.Shallower limits outer (loops + 1) m') (paid : m.remaining ≠ 0) :
    m'.remaining ≠ 0 := by
  have := h.remaining (Nat.succ_ne_zero loops)
  omega

/-- Both machines enter an outermost loop. -/
theorem outermost (h : m.Shallower limits outer loops m') (idle : m.loops = 0) :
    Shallower limits outer (loops + 1) { m with remaining := limits.iterations, loops := 1 }
      { m' with remaining := limits.iterations, loops := 1 } where
  bindings := h.bindings
  betas := h.betas
  loops_first := by have := h.loops_first; dsimp only; omega
  loops_second := by have := h.loops_first; dsimp only; omega
  within := Nat.le_refl _
  remaining _ := Nat.le_refl _

/-- The first machine enters a loop inside others, the second any loop with enough budget. -/
theorem inner (h : m.Shallower limits outer loops m') {remaining : Nat}
    (enough : m.remaining ≤ remaining) :
    Shallower limits outer (loops + 1) { m with loops := m.loops + 1 }
      { m' with remaining, loops := m'.loops + 1 } where
  bindings := h.bindings
  betas := h.betas
  loops_first := by have := h.loops_first; dsimp only; omega
  loops_second := congrArg (· + 1) h.loops_second
  within := h.within
  remaining _ := enough

theorem leave (h : m.Shallower limits outer (loops + 1) m') :
    Shallower limits outer loops { m with loops := m.loops - 1 }
      { m' with loops := m'.loops - 1 } where
  bindings := h.bindings
  betas := h.betas
  loops_first := by have := h.loops_first; dsimp only; omega
  loops_second := congrArg (· - 1) h.loops_second
  within := h.within
  remaining _ := h.remaining (Nat.succ_ne_zero loops)

/-- Between two moves by hand, the second machine may do what leaves its arguments alone. -/
theorem of_idle {m'' : Machine} (h : m.Shallower limits outer 0 m')
    (bindings : m''.bindings = m'.bindings) (betas : m''.betas = m'.betas) (idle : m''.loops = 0) :
    m.Shallower limits outer 0 m'' where
  bindings := bindings.trans h.bindings
  betas := betas.trans h.betas
  loops_first := h.loops_first
  loops_second := idle
  within := h.within
  remaining h := absurd rfl h

/-- By hand, an outermost loop begins with a full budget. -/
theorem enter (h : m.Shallower limits 1 0 m') :
    m.Shallower limits 0 1 { m' with remaining := limits.iterations, loops := 1 } where
  bindings := h.bindings
  betas := h.betas
  loops_first := h.loops_first
  loops_second := rfl
  within := h.within
  remaining _ := h.within

theorem leave_outermost (h : m.Shallower limits 0 1 m') :
    m.Shallower limits 1 0 { m' with loops := m'.loops - 1 } where
  bindings := h.bindings
  betas := h.betas
  loops_first := h.loops_first
  loops_second := congrArg (· - 1) h.loops_second
  within := h.within
  remaining h := absurd rfl h

/-- A loop inside others on the first machine is an outermost one on the second, or inside others
too. -/
theorem simulates_inLoop {α β : Type} {S : α → β → Prop} {x : EvalM α} {y : EvalM β}
    (h : Simulates (Shallower limits outer (loops + 1)) S x y) :
    Simulates (Shallower limits outer loops) S (inLoop limits x) (inLoop limits y) := by
  intro m m' hm
  have hfirst := hm.loops_first
  have hsecond := hm.loops_second
  by_cases hidle : m.loops = 0
  · rw [run_inLoop_of_idle hidle, run_inLoop_of_idle (by omega : m'.loops = 0)]
    exact (h _ _ (hm.outermost hidle)).leaveLoop leave
  rcases run_inLoop_of_busy limits x hidle with ⟨error, limited, hrun⟩ | ⟨room, stack⟩
  · rw [hrun]
    exact .limit m limited _
  rw [run_inLoop_of_room hidle room stack]
  -- The budget of the second machine is full if the loop is its outermost one.
  by_cases hidle' : m'.loops = 0
  · have hentered := hm.inner hm.within
    rw [hidle'] at hentered
    rw [run_inLoop_of_idle hidle']
    exact (h _ _ hentered).leaveLoop leave
  · have hentered := hm.inner (hm.remaining (by omega))
    rw [run_inLoop_of_room hidle' (by omega) (by omega)]
    exact (h _ _ hentered).leaveLoop leave

end Machine.Shallower

theorem couples_shallower (limits : Limits) (outer loops : Nat) :
    Couples Eq (Machine.Shallower limits outer loops) where
  arguments h := arguments_of_bindings_eq h.bindings
  countStep h := { h with }
  bindArg h binder arg _ args :=
    { h with
      bindings := by rw [h.bindings, args]
      betas := congrArg (· + 1) h.betas }

theorem carries_shallower (limits : Limits) (outer : Nat) :
    Carries limits limits (Machine.Shallower limits outer) where
  couples := couples_shallower limits outer
  spend loops target := by
    intro m m' hm
    rw [run_spend, run_spend]
    by_cases hspent : m.remaining = 0
    · rw [if_pos hspent]
      exact .limit m rfl _
    · rw [if_neg hspent, if_neg (hm.funds hspent)]
      exact .ok rfl hm.pay
  record loops expr := by
    intro m m' hm
    rw [run_record, run_record]
    split_ifs <;> exact .ok rfl (hm.withTrace _ _)
  inLoop loops := Machine.Shallower.simulates_inLoop

/-! ### The trace inside a step -/

/-- One machine, inside an outermost loop and `loops` more, with this trace. -/
structure Machine.Inside (trace : List Expr) (loops : Nat) (m m' : Machine) : Prop where
  same : m' = m
  loops_eq : m.loops = loops + 1
  trace_eq : m.trace = trace

theorem carries_inside (limits : Limits) (trace : List Expr) :
    Carries limits limits (Machine.Inside trace) where
  couples loops :=
    { arguments := fun h => arguments_of_bindings_eq (congrArg Machine.bindings h.same)
      countStep := by
        rintro m _ ⟨rfl, hloops, htrace⟩
        exact ⟨rfl, hloops, htrace⟩
      bindArg := by
        rintro m _ ⟨rfl, hloops, htrace⟩ binder arg _ rfl
        exact ⟨rfl, hloops, htrace⟩ }
  spend loops target := by
    rintro m _ ⟨rfl, hloops, htrace⟩
    rw [run_spend]
    split_ifs
    · exact .error _ ⟨rfl, hloops, htrace⟩
    · exact .ok rfl ⟨rfl, hloops, htrace⟩
  record loops expr := by
    rintro m _ ⟨rfl, hloops, htrace⟩
    rw [run_record, if_neg (by omega)]
    exact .ok rfl ⟨rfl, hloops, htrace⟩
  inLoop loops α β S x y h := by
    refine Encloses.inLoop ⟨Nat.le_refl _, Nat.le_refl _, ?_, ?_, ?_, ?_⟩ h
    · rintro m _ ⟨rfl, -, -⟩
      rfl
    · rintro m _ ⟨rfl, hloops, -⟩ idle
      omega
    · rintro m _ ⟨rfl, hloops, htrace⟩ -
      exact ⟨rfl, congrArg (· + 1) hloops, htrace⟩
    · rintro m _ ⟨rfl, hloops, htrace⟩
      exact ⟨rfl, congrArg (· - 1) hloops, htrace⟩

/-- A step inside a loop with this bound. -/
abbrev Expr.stepWithin (limits : Limits) (bound : Nat) (expr : Expr) : EvalM Expr :=
  expr.stepWith fun target expr => inLoop limits (iterate limits bound target expr)

/-- A step of an outermost loop leaves the trace alone. -/
theorem inside_of_stepWithin {bound : Nat} {expr next : Expr} {m m₁ : Machine}
    (step : (expr.stepWithin limits bound).run m = .ok next m₁) (outermost : m.loops = 1) :
    m₁.loops = 1 ∧ m₁.trace = m.trace := by
  have hcarries := carries_inside limits m.trace
  have hstep := hcarries.stepWith (hcarries.iterate (Nat.le_refl bound) 0) expr m m
    ⟨rfl, outermost, rfl⟩
  rw [step] at hstep
  obtain ⟨_, _, -, -, inside⟩ := hstep.of_ok
  exact ⟨inside.loops_eq, inside.trace_eq⟩

/-! ### The path of a loop -/

/-- What is left of a loop to a value: with this bound, from this expression on this machine, its
steps lead through the expressions of the path to the value, on the machine `last`. -/
inductive Passes (limits : Limits) (value : Value) (last : Machine) :
    Nat → Expr → Machine → List Expr → Prop
  | done (bound : Nat) : Passes limits value last bound (.lit value) last []
  | step {bound : Nat} {expr next : Expr} {m m₁ : Machine} {path : List Expr}
    (paid : m.remaining ≠ 0)
    (step : (expr.stepWithin limits bound).run { m with remaining := m.remaining - 1 } =
      .ok next m₁)
    (rest : Passes limits value last bound next { m₁ with trace := next :: m₁.trace } path)
    (halts : path = [] ∨ next.value? = none) :
    Passes limits value last (bound + 1) expr m (next :: path)

variable {value : Value} {last : Machine}

theorem Passes.eq_lit {bound : Nat} {expr : Expr} {m : Machine}
    (h : Passes limits value last bound expr m []) : expr = .lit value ∧ m = last := by
  cases h with
  | done => exact ⟨rfl, rfl⟩

theorem Passes.getLast? {bound : Nat} {expr : Expr} {m : Machine} {path : List Expr}
    (h : Passes limits value last bound expr m path) (ahead : path ≠ []) :
    path.getLast? = some (.lit value) := by
  induction h with
  | done => exact absurd rfl ahead
  | @step bound expr next m m₁ path paid step rest halts ih =>
    cases path with
    | nil =>
      obtain ⟨rfl, -⟩ := rest.eq_lit
      rfl
    | cons first others => exact ih (List.cons_ne_nil _ _)

/-- An outermost loop that ends has a path, which is what it has added to the trace. -/
theorem exists_passes {bound : Nat} {expr : Expr} {m : Machine}
    (run : (iterate limits bound .value expr).run m = .ok value last) (outermost : m.loops = 1) :
    ∃ path, Passes limits value last bound expr m path ∧ path ≠ [] ∧
      last.trace = path.reverse ++ m.trace := by
  induction bound generalizing expr m with
  | zero => cases run
  | succ bound ih =>
    by_cases hspent : m.remaining = 0
    · rw [run_iterate_of_spent limits (bound + 1) .value expr hspent] at run
      cases run
    rw [run_iterate_succ limits bound .value expr hspent] at run
    obtain ⟨next, m₁, step, arrived⟩ := run_bind_eq_ok_iff.1 run
    obtain ⟨outermost₁, htrace⟩ := inside_of_stepWithin step outermost
    rw [arrive, run_bind_of_ok (run_record next m₁), if_pos outermost₁] at arrived
    cases hvalue : next.value? with
    | some result =>
      have hreach : Target.value.reach? next = some result := hvalue
      obtain rfl : .lit result = next := Target.toExpr_of_reach? hreach
      cases arrived
      exact ⟨[.lit value], .step hspent step (.done bound) (.inl rfl), List.cons_ne_nil _ _,
        congrArg (.lit value :: ·) htrace⟩
    | none =>
      have hreach : Target.value.reach? next = none := hvalue
      rw [hreach] at arrived
      obtain ⟨path, rest, -, hpath⟩ := ih arrived outermost₁
      refine ⟨next :: path, .step hspent step rest (.inr hvalue), List.cons_ne_nil _ _, ?_⟩
      rw [hpath, htrace, List.reverse_cons, List.append_assoc]
      rfl

/-! ### Staying on the path -/

/-- A machine that is driven by hand, with the path ahead of it; inside a loop of its own, which is
the only one, `loops` is one and `outer` is zero. -/
def Underway (limits : Limits) (value : Value) (last : Machine) (outer loops : Nat)
    (path : List Expr) (expr : Expr) (m' : Machine) : Prop :=
  ∃ bound m, Passes limits value last bound expr m path ∧ bound ≤ limits.iterations ∧
    m.Shallower limits outer loops m'

/-- The loops inside a step have a bound that is no smaller, and end alike. -/
theorem Machine.Shallower.stepWithin {outer loops bound bound' : Nat} {expr next : Expr}
    {m m' m₁ : Machine} (h : m.Shallower limits outer loops m') (more : bound ≤ bound')
    (step : (expr.stepWithin limits bound).run m = .ok next m₁) :
    ∃ m₁', (expr.stepWithin limits bound').run m' = .ok next m₁' ∧
      m₁.Shallower limits outer loops m₁' := by
  have hcarries := carries_shallower limits outer
  have hstep := hcarries.stepWith (hcarries.iterate more loops) expr m m' h
  rw [step] at hstep
  obtain ⟨_, m₁', hrun, rfl, machines⟩ := hstep.of_ok
  exact ⟨m₁', hrun, machines⟩

/-- A step by hand leads to the next expression of the path. -/
theorem Underway.step {next : Expr} {path : List Expr} {expr : Expr} {m' : Machine}
    (h : Underway limits value last 1 0 (next :: path) expr m') :
    ∃ m'', (Move.step.run limits expr).run m' = .ok next m'' ∧
      Underway limits value last 1 0 path next m'' := by
  obtain ⟨_, _, passes, enough, machines⟩ := h
  cases passes with
  | @step bound _ _ m m₁ _ paid step rest halts =>
    have more : bound ≤ limits.iterations := by omega
    obtain ⟨m'', hrun, machines₁⟩ := machines.pay_first.stepWithin more step
    exact ⟨m'', hrun, bound, _, rest, more, machines₁.withTrace _ _⟩

/-- A loop of its own, inside which the machine stays on the path, until it stops there. -/
theorem Passes.run_iterate {bound bound' : Nat} {expr : Expr} {m m' : Machine} {path : List Expr}
    (h : Passes limits value last bound expr m path) (ahead : path ≠ []) (more : bound ≤ bound')
    (enough : bound ≤ limits.iterations) (machines : m.Shallower limits 0 1 m')
    (target : Target) :
    ∃ result m'' path', (iterate limits bound' target expr).run m' = .ok result m'' ∧
      Underway limits value last 0 1 path' (target.toExpr result) m'' ∧
      (target = .value → path' = []) := by
  -- The induction is on the path; a loop to a head normal form may stop before the end of it.
  induction h generalizing bound' m' with
  | done => exact absurd rfl ahead
  | @step bound expr next m m₁ path paid step rest halts ih =>
    obtain ⟨bound', rfl⟩ := Nat.exists_eq_add_of_lt more
    have more' : bound ≤ bound + bound' := Nat.le_add_right _ _
    have enough' : bound ≤ limits.iterations := by omega
    obtain ⟨m₁', hstep, machines₁⟩ := machines.pay.stepWithin more' step
    rw [run_iterate_succ limits _ target expr (machines.funds paid), run_bind_of_ok hstep]
    cases hreach : target.reach? next with
    | some result =>
      obtain ⟨trace, harrive⟩ := run_arrive_of_reach limits (bound + bound') m₁' hreach
      have hnext := Target.toExpr_of_reach? hreach
      refine ⟨result, _, path, harrive,
        ⟨bound, _, hnext ▸ rest, enough', machines₁.withTrace _ _⟩, ?_⟩
      rintro rfl
      exact halts.resolve_right fun hnone => by cases hnone.symm.trans hreach
    | none =>
      obtain ⟨trace, harrive⟩ := run_arrive_of_not_reach limits (bound + bound') m₁' hreach
      rw [harrive]
      refine ih ?_ more' enough' (machines₁.withTrace _ _)
      rintro rfl
      obtain ⟨rfl, -⟩ := rest.eq_lit
      rw [target.reach?_lit] at hreach
      cases hreach

/-- A loop that starts at a literal stays there. -/
theorem run_iterate_lit (limits : Limits) {bound : Nat} (target : Target) (value : Value)
    {m : Machine} (funded : bound ≠ 0) (funds : m.remaining ≠ 0) :
    ∃ trace, (iterate limits bound target (.lit value)).run m = .ok (target.ofValue value)
      { m with remaining := m.remaining - 1, steps := m.steps + 1, trace } := by
  obtain ⟨bound, rfl⟩ := Nat.exists_eq_succ_of_ne_zero funded
  rw [run_iterate_succ limits bound target _ funds]
  exact run_arrive_of_reach limits bound
    { m with remaining := m.remaining - 1, steps := m.steps + 1 } (target.reach?_lit value)

/-- A loop by hand, to a value or to a head normal form, stops on the path; one to a value at its
end. -/
theorem Underway.run_runLoop {path : List Expr} {expr : Expr} {m' : Machine}
    (h : Underway limits value last 1 0 path expr m') (funded : limits.iterations ≠ 0)
    (target : Target) :
    ∃ result m'' path', (runLoop limits target expr).run m' = .ok result m'' ∧
      Underway limits value last 1 0 path' (target.toExpr result) m'' ∧
      (target = .value → path' = []) := by
  obtain ⟨bound, m, passes, enough, machines⟩ := h
  rw [runLoop, run_inLoop_of_idle machines.loops_second]
  cases path with
  | nil =>
    obtain ⟨rfl, -⟩ := passes.eq_lit
    obtain ⟨trace, hrun⟩ := run_iterate_lit limits target value funded
      (m := { m' with remaining := limits.iterations, loops := 1 }) funded
    have hvalue : target.toExpr (target.ofValue value) = .lit value :=
      Target.toExpr_of_reach? (target.reach?_lit value)
    rw [hrun]
    exact ⟨_, _, [], rfl, ⟨bound, m, hvalue ▸ passes, enough, machines.of_idle rfl rfl rfl⟩,
      fun _ => rfl⟩
  | cons next path =>
    obtain ⟨result, m'', path', hrun, ⟨bound', m₁, passes', enough', machines'⟩, atEnd⟩ :=
      passes.run_iterate (List.cons_ne_nil _ _) enough enough machines.enter target
    rw [hrun]
    exact ⟨result, _, path', rfl, ⟨bound', m₁, passes', enough', machines'.leave_outermost⟩, atEnd⟩

/-- Any number of loops to a head normal form, and then one to a value. -/
theorem Underway.run_drive_loops {path : List Expr} {expr : Expr} {m' : Machine}
    (h : Underway limits value last 1 0 path expr m') (funded : limits.iterations ≠ 0) (r : Nat) :
    ∃ heads m'', (drive limits (List.replicate r .reduce ++ [.evaluate]) expr).run m' =
        .ok (heads ++ [.lit value]) m'' ∧
      heads.length = r ∧ m''.bindings = last.bindings ∧ m''.betas = last.betas := by
  induction r generalizing path expr m' with
  | zero =>
    obtain ⟨result, m'', path', hrun, hunderway, atEnd⟩ := h.run_runLoop funded .value
    obtain rfl := atEnd rfl
    obtain ⟨_, _, passes, -, machines⟩ := hunderway
    obtain ⟨hvalue, rfl⟩ := passes.eq_lit
    have hevaluate : (Move.evaluate.run limits expr).run m' = .ok (.lit value) m'' := by
      rw [← hvalue]
      exact run_bind_of_ok hrun
    exact ⟨[], m'', run_drive_cons hevaluate rfl, rfl, machines.bindings, machines.betas⟩
  | succ r ih =>
    obtain ⟨result, m₁', path', hrun, hunderway, -⟩ := h.run_runLoop funded .headNormal
    obtain ⟨heads, m'', hrest, hlength, hbindings, hbetas⟩ := ih hunderway
    have hreduce : (Move.reduce.run limits expr).run m' = .ok result.toExpr m₁' :=
      run_bind_of_ok hrun
    exact ⟨result.toExpr :: heads, m'', run_drive_cons hreduce hrest, congrArg (· + 1) hlength,
      hbindings, hbetas⟩

/-- Some steps of the path before that. -/
theorem Underway.run_drive {path : List Expr} {expr : Expr} {m' : Machine}
    (h : Underway limits value last 1 0 path expr m') (funded : limits.iterations ≠ 0) {k : Nat}
    (le : k ≤ path.length) (r : Nat) :
    ∃ heads m'', (drive limits (List.replicate k .step ++
          (List.replicate r .reduce ++ [.evaluate])) expr).run m' =
        .ok (path.take k ++ (heads ++ [.lit value])) m'' ∧
      heads.length = r ∧ m''.bindings = last.bindings ∧ m''.betas = last.betas := by
  induction k generalizing path expr m' with
  | zero => exact h.run_drive_loops funded r
  | succ k ih =>
    cases path with
    | nil => exact absurd le (Nat.not_succ_le_zero k)
    | cons next path =>
      obtain ⟨m₁', hstep, hunderway⟩ := h.step
      obtain ⟨heads, m'', hrest, hlast⟩ := ih hunderway (Nat.le_of_succ_le_succ le)
      exact ⟨heads, m'', run_drive_cons hstep hrest, hlast⟩

/-! ### Main result -/

theorem leaveLoop_eq_ok {α : Type} {r : EStateM.Result EvalError Machine α} {a : α} {m : Machine}
    (h : leaveLoop r = .ok a m) : ∃ m₀, r = .ok a m₀ ∧ m = { m₀ with loops := m₀.loops - 1 } := by
  cases r with
  | ok b m₀ =>
    cases h
    exact ⟨m₀, rfl, rfl⟩
  | error error m₀ => cases h

/-- If an evaluation on an idle machine returns a value, then the expressions that its outermost
loop stepped to, the last of which is that value, can be had by hand: on the same machine, with the
same limits, that many steps or fewer return them in turn; and after these, any number of loops to a
head normal form and one to a value end with the value, and with the arguments bound that the
evaluation has bound, and as many of them. -/
theorem drive_of_evaluate {expr : Expr} {value : Value} {m m₁ : Machine} (idle : m.loops = 0)
    (run : (expr.evaluate limits).run m = .ok value m₁) :
    ∃ path : List Expr, m₁.trace = path.reverse ++ m.trace ∧ path.getLast? = some (.lit value) ∧
      ∀ k ≤ path.length, ∀ r, ∃ heads m₂,
        (drive limits (List.replicate k .step ++ (List.replicate r .reduce ++ [.evaluate]))
            expr).run m = .ok (path.take k ++ (heads ++ [.lit value])) m₂ ∧
          heads.length = r ∧ m₂.bindings = m₁.bindings ∧ m₂.betas = m₁.betas := by
  rw [Expr.evaluate, runLoop, run_inLoop_of_idle idle] at run
  obtain ⟨last, hrun, rfl⟩ := leaveLoop_eq_ok run
  obtain ⟨path, passes, ahead, htrace⟩ := exists_passes hrun rfl
  have funded : limits.iterations ≠ 0 := by
    intro hnone
    rw [run_iterate_of_spent limits limits.iterations .value expr hnone] at hrun
    cases hrun
  have hunderway : Underway limits value last 1 0 path expr m :=
    ⟨limits.iterations, _, passes, Nat.le_refl _, rfl, rfl, rfl, idle, Nat.le_refl _,
      fun h => absurd rfl h⟩
  exact ⟨path, htrace, passes.getLast? ahead, fun k le r => hunderway.run_drive funded le r⟩

/-- The identity applied to a product, with just the steps and the loops that the evaluation needs:
the variable, the product and the value can be had by hand. -/
theorem drive_of_evaluate_identity :
    ∃ product expr m₁, product = .binary (.strict .mul) (.lit (.int 2)) (.lit (.int 3)) ∧
      expr = .app (.lam (-1) (.var (-1))) product ∧
      (expr.evaluate ⟨6, 2, 2⟩).run {} = .ok (.int 6) m₁ ∧ m₁.remaining = 0 ∧ m₁.betas = 1 ∧
      ∀ k ≤ 3, ∀ r, ∃ heads m₂,
        (drive ⟨6, 2, 2⟩ (List.replicate k .step ++ (List.replicate r .reduce ++ [.evaluate]))
            expr).run {} =
          .ok ([.var (-1), product, .lit (.int 6)].take k ++ (heads ++ [.lit (.int 6)])) m₂ ∧
          heads.length = r ∧ m₂.bindings = m₁.bindings ∧ m₂.betas = m₁.betas := by
  let product : Expr := .binary (.strict .mul) (.lit (.int 2)) (.lit (.int 3))
  let expr : Expr := .app (.lam (-1) (.var (-1))) product
  let r := (expr.evaluate ⟨6, 2, 2⟩).run {}
  have hout : outcome .lit r = .ok (.lit (.int 6)) := by decide +kernel
  have hafter : (after r).remaining = 0 ∧ (after r).betas = 1 ∧
      (after r).trace = [.lit (.int 6), product, .var (-1)] := by
    decide +kernel
  cases hrun : (expr.evaluate ⟨6, 2, 2⟩).run {} with
  | error error m₁ =>
    rw [show r = .error error m₁ from hrun] at hout
    cases hout
  | ok value m₁ =>
    rw [show r = .ok value m₁ from hrun] at hout hafter
    cases hout
    obtain ⟨hremaining, hbetas, htrace⟩ := hafter
    obtain ⟨path, hpath, -, hdrive⟩ := drive_of_evaluate rfl hrun
    obtain rfl : path = [.var (-1), product, .lit (.int 6)] := by
      rw [← List.reverse_inj, ← List.append_nil path.reverse]
      exact hpath.symm.trans htrace
    exact ⟨product, expr, m₁, rfl, rfl, hrun, hremaining, hbetas, hdrive⟩

end Lambda94
