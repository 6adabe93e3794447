import Lambda94.CommandLine.Run
import Lambda94.Proofs.ByHand

/-!
# The command that shows the steps

The commands `run` and `step` evaluate a program alike, so that they fail alike; and when they do
not fail, `step` shows the program, every expression that stepping it by hand leads to, up to the
first value, and with that the value that `run` answers: `step_shows_run`.
-/

namespace Lambda94

open EvalM

variable {limits : Limits} {value : Value} {last : Machine}

/-! ### The path to a value -/

/-- Steps by hand, on a fresh machine, lead from an expression through the path, which ends with
the value and has no value on it before. -/
structure Expr.LeadsThrough (limits : Limits) (expr : Expr) (path : List Expr) (value : Value) :
    Prop where
  steps : ∃ m, (drive limits (List.replicate path.length .step) expr).run {} = .ok path m
  ends : path.getLast? = some (.lit value)
  first : ∀ next ∈ path.dropLast, next.value? = none

theorem Underway.run_drive_steps {path : List Expr} {expr : Expr} {m : Machine}
    (h : Underway limits value last 1 0 path expr m) :
    ∃ m', (drive limits (List.replicate path.length .step) expr).run m = .ok path m' := by
  induction path generalizing expr m with
  | nil => exact ⟨m, rfl⟩
  | cons next path ih =>
    obtain ⟨m₁, hstep, ahead⟩ := h.step
    obtain ⟨m', hrest⟩ := ih ahead
    exact ⟨m', run_drive_cons hstep hrest⟩

theorem Passes.value?_eq_none {bound : Nat} {expr : Expr} {m : Machine} {path : List Expr}
    (h : Passes limits value last bound expr m path) :
    ∀ next ∈ path.dropLast, next.value? = none := by
  induction h with
  | done => exact nofun
  | @step bound expr next m m₁ path paid step rest halts ih =>
    cases path with
    | nil => exact nofun
    | cons second others =>
      rw [List.dropLast_cons_cons]
      exact List.forall_mem_cons.2 ⟨halts.resolve_left (List.cons_ne_nil _ _), ih⟩

/-- The trace of an evaluation on a fresh machine is the path from the expression to its value. -/
theorem leadsThrough_trace {expr : Expr} {m : Machine}
    (run : (expr.evaluate limits).run {} = .ok value m) :
    expr.LeadsThrough limits m.trace.reverse value := by
  rw [Expr.evaluate, runLoop, run_inLoop_of_idle rfl] at run
  obtain ⟨last, hrun, rfl⟩ := leaveLoop_eq_ok run
  obtain ⟨path, passes, ahead, htrace⟩ := exists_passes hrun rfl
  have underway : Underway limits value last 1 0 path expr {} :=
    ⟨limits.iterations, _, passes, Nat.le_refl _, rfl, rfl, rfl, rfl, Nat.le_refl _,
      fun h => absurd rfl h⟩
  have hpath : last.trace.reverse = path :=
    List.reverse_eq_iff.2 (htrace.trans (List.append_nil _))
  rw [hpath]
  exact ⟨underway.run_drive_steps, passes.getLast? ahead, passes.value?_eq_none⟩

namespace CommandLine

/-! ### The two commands -/

/-- What was written to a channel, in order. -/
def Outcome.on (outcome : Outcome) (channel : Channel) : List Text :=
  outcome.output.filterMap fun piece => if piece.1 = channel then some piece.2 else none

theorem on_append (before after : List (Channel × Text)) (failure : Option Failure)
    (channel : Channel) : Outcome.on ⟨before ++ after, failure⟩ channel =
      Outcome.on ⟨before, failure⟩ channel ++ Outcome.on ⟨after, failure⟩ channel :=
  List.filterMap_append

/-- Expressions are shown on the line channel and on no other one. -/
theorem on_map_shown (exprs : List Expr) (failure : Option Failure) (channel : Channel) :
    Outcome.on ⟨exprs.map fun next => (.line, "-> " ++ next.pretty), failure⟩ channel =
      if channel = .line then exprs.map fun next => Text.ofString "-> " ++ next.pretty else [] := by
  induction exprs with
  | nil => cases channel <;> rfl
  | cons next exprs ih =>
    rw [List.map_cons, ← List.singleton_append, on_append, ih]
    cases channel <;> rfl

/-- Whether the steps are shown does not matter to the end of an evaluation. -/
theorem failure_evaluate (expr : Expr) (stepping stepping' verbose : Bool) (budget : Number) :
    (evaluate expr stepping verbose budget).failure =
      (evaluate expr stepping' verbose budget).failure := by
  rw [evaluate, evaluate]
  cases Limits.ofNumbers (some budget) none with
  | error error => rfl
  | ok limits =>
    dsimp only
    cases (expr.evaluate limits).run {} <;> rfl

theorem exists_run_of_succeeds {expr : Expr} {stepping verbose : Bool} {budget : Number}
    (succeeds : (evaluate expr stepping verbose budget).failure = none) :
    ∃ limits value m, Limits.ofNumbers (some budget) none = .ok limits ∧
      (expr.evaluate limits).run {} = .ok value m := by
  rw [evaluate] at succeeds
  cases given : Limits.ofNumbers (some budget) none with
  | error error =>
    rw [given] at succeeds
    cases succeeds
  | ok limits =>
    rw [given] at succeeds
    dsimp only at succeeds
    cases evaluated : (expr.evaluate limits).run {} with
    | error error m =>
      rw [evaluated] at succeeds
      cases succeeds
    | ok value m => exact ⟨limits, value, m, rfl, evaluated⟩

/-- The remarks about a run. -/
def remarks (verbose : Bool) (m : Machine) : List Text :=
  if verbose then [workReport m] else []

section

variable {expr : Expr} {budget : Number} {m : Machine}

theorem on_of_run (given : Limits.ofNumbers (some budget) none = .ok limits)
    (run : (expr.evaluate limits).run {} = .ok value m) (verbose : Bool) :
    (evaluate expr false verbose budget).on .result = [value.pretty] ∧
      (evaluate expr false verbose budget).on .info = remarks verbose m := by
  rw [evaluate, given]
  dsimp only
  rw [run]
  cases verbose <;> exact ⟨rfl, rfl⟩

theorem on_of_step (given : Limits.ofNumbers (some budget) none = .ok limits)
    (run : (expr.evaluate limits).run {} = .ok value m) (verbose : Bool) :
    (evaluate expr true verbose budget).on .line =
        expr.pretty :: m.trace.reverse.map (fun next => "-> " ++ next.pretty) ∧
      (evaluate expr true verbose budget).on .result = [] ∧
      (evaluate expr true verbose budget).on .info = remarks verbose m := by
  rw [evaluate, given]
  dsimp only
  rw [run]
  dsimp only
  simp only [on_append, if_pos, on_map_shown]
  cases verbose <;> simp [Outcome.on, conclusion, remarks]

end

/-! ### Main result -/

/-- `run` and `step` both end with the same failure or both do not fail.  When they do not, `step`
has written to the line channel the program and then, each behind an arrow, the expressions that
steps by hand lead to up to the first value; the last line has behind its arrow the text that is all
that `run` has written to the result channel.  `step` has written nothing there, and the remarks are
the same. -/
theorem step_shows_run (source : Text) (verbose : Bool) (budget : Number) :
    let ran := run .run source verbose budget
    let stepped := run .step source verbose budget
    ran.failure = stepped.failure ∧
      (ran.failure = none → ∃ limits expr path value, ∃ text : Text,
        Limits.ofNumbers (some budget) none = .ok limits ∧ Expr.ofText source = .ok expr ∧
          expr.LeadsThrough limits path value ∧
          stepped.on .line = expr.pretty :: path.map (fun next => "-> " ++ next.pretty) ∧
          (stepped.on .line).getLast? = some ("-> " ++ text) ∧
          ran.on .result = [text] ∧ stepped.on .result = [] ∧
          ran.on .info = stepped.on .info) := by
  intro ran stepped
  cases read : Expr.ofText source with
  | error error =>
    have hran : ran = ⟨[], some (.read error)⟩ := by simp only [ran, run, read]
    have hstepped : stepped = ⟨[], some (.read error)⟩ := by simp only [stepped, run, read]
    rw [hran, hstepped]
    exact ⟨rfl, nofun⟩
  | ok expr =>
    have hran : ran = evaluate expr false verbose budget := by simp only [ran, run, read]
    have hstepped : stepped = evaluate expr true verbose budget := by
      simp only [stepped, run, read]
    rw [hran, hstepped]
    refine ⟨failure_evaluate expr false true verbose budget, fun succeeds => ?_⟩
    obtain ⟨limits, value, m, given, evaluated⟩ := exists_run_of_succeeds succeeds
    obtain ⟨answer, info⟩ := on_of_run given evaluated verbose
    obtain ⟨lines, nothing, info'⟩ := on_of_step given evaluated verbose
    have leads := leadsThrough_trace evaluated
    refine ⟨limits, expr, m.trace.reverse, value, value.pretty, given, rfl, leads, lines, ?_,
      answer, nothing, info.trans info'.symm⟩
    rw [lines, List.getLast?_cons, List.getLast?_map, leads.ends]
    rfl

/-- The identity applied to a product, with remarks: two expressions are shown before the value. -/
theorem step_shows_run_identity :
    let source : Text := "B$ L! v! B* I# I$"
    let ran := run .run source true (Number.ofNat 6)
    let stepped := run .step source true (Number.ofNat 6)
    ran.failure = none ∧ ran.failure = stepped.failure ∧
      stepped.on .line =
        (["(λv-1.v-1 (2 * 3))", "-> v-1", "-> (2 * 3)", "-> 6"] : List Text) ∧
      ran.on .result = (["6"] : List Text) ∧ stepped.on .result = [] ∧
      ran.on .info = (["[DEBUG] steps=6 betaReductions=1"] : List Text) ∧
      ran.on .info = stepped.on .info := by
  intro source ran stepped
  obtain ⟨same, shows⟩ := step_shows_run source true (Number.ofNat 6)
  have succeeds : ran.failure = none := by decide +kernel
  obtain ⟨limits, expr, path, value, text, -, -, -, -, -, -, nothing, info⟩ := shows succeeds
  exact ⟨succeeds, same, by decide +kernel, by decide +kernel, nothing, by decide +kernel, info⟩

end CommandLine

end Lambda94
