import Lambda94.Proofs.MachineRun
import Lambda94.Proofs.OperatorError
import Mathlib.Logic.Relation

/-!
# The course of an evaluation

An evaluation moment by moment: what is about to happen, and what waits for it.  The loops in
progress are among what waits, and the steps that loops have paid for are counted, but nothing
bounds them; by itself a course may go on for ever.  Limits cut it off where they object: to a step
that a loop asks for when all of the budget is used, and to a loop that would begin when as many as
allowed are in progress.

The machine goes through the course up to its end or to the first objection, whatever the
expression and the bindings (`EvalM.takes_iterate`).  So there is such a moment, and what the
machine says at the end tells which it was: `runLoop_course`.
-/

namespace Lambda94

/-! ### Moments -/

/-- What waits while something else is done. -/
inductive Frame
  /-- A unary operator waits for the step of its operand. -/
  | operand (op : UnaryOp)
  | left (op : StrictOp) (right : Expr)
  | right (op : StrictOp) (a : Value)
  | head (arg : Expr)
  | condition (thenBranch elseBranch : Expr)
  /-- A loop waits for the step that it has paid for. -/
  | loop (target : Target)
deriving DecidableEq, Repr

/-- What is about to happen. -/
inductive Stage
  /-- A loop begins. -/
  | begin (target : Target) (expr : Expr)
  /-- A loop in progress asks for a step. -/
  | turn (target : Target) (expr : Expr)
  | step (expr : Expr)
  /-- A step or a loop has come to an expression, which goes to what waits for it. -/
  | back (expr : Expr)
  | failed (error : EvalError)
deriving DecidableEq, Repr

/-- The stage after an operator was applied. -/
def Stage.ofOutcome : Except EvalError Expr → Stage
  | .ok expr => .back expr
  | .error error => .failed error

/-- A moment of an evaluation. -/
structure Moment where
  stage : Stage
  /-- What waits, innermost first. -/
  waiting : List Frame
  store : Store
  /-- The steps that loops have paid for. -/
  paid : Nat

/-- What waits is a loop. -/
def Frame.isLoop : Frame → Bool
  | .loop _ => true
  | _ => false

/-- The number of loops among what waits. -/
def loopsIn (frames : List Frame) : Nat := frames.countP Frame.isLoop

namespace Moment

/-- The loops in progress. -/
def loops (moment : Moment) : Nat := loopsIn moment.waiting

/-- The beginning of a step. -/
def step (moment : Moment) : Expr → Moment
  | .lit value => { moment with stage := .back (.lit value) }
  | .lam binder body => { moment with stage := .back (.lam binder body) }
  | .var id =>
    { moment with
      stage := match moment.store[id]? with
        | some arg => .back arg
        | none => .failed (.unboundVariable id) }
  | .unary op (.lit value) => { moment with stage := .ofOutcome ((op.eval value).map .lit) }
  | .unary op operand =>
    { moment with stage := .step operand, waiting := .operand op :: moment.waiting }
  | .binary (.strict op) left right =>
    { moment with stage := .begin .value left, waiting := .left op right :: moment.waiting }
  | .binary .apply fn arg =>
    { moment with stage := .begin .headNormal fn, waiting := .head arg :: moment.waiting }
  | .cond condition thenBranch elseBranch =>
    { moment with
      stage := .begin .value condition,
      waiting := .condition thenBranch elseBranch :: moment.waiting }

/-- What has waited goes on with an expression.  Operators and conditions wait for values, and an
application for a head normal form. -/
def resume (moment : Moment) : Frame → Expr → Option Moment
  | .operand op, next => some { moment with stage := .back (.unary op next) }
  | .left op right, .lit a =>
    some { moment with stage := .begin .value right, waiting := .right op a :: moment.waiting }
  | .right op a, .lit b => some { moment with stage := .ofOutcome ((op.eval a b).map .lit) }
  | .head arg, .lam binder body =>
    some { moment with stage := .back body, store := moment.store.insert binder arg }
  | .head arg, .var id => some { moment with stage := .back (.app (.var id) arg) }
  | .head _, .lit value => some { moment with stage := .failed (.applyNonFunction value) }
  | .condition thenBranch _, .lit (.bool true) =>
    some { moment with stage := .back thenBranch }
  | .condition _ elseBranch, .lit (.bool false) =>
    some { moment with stage := .back elseBranch }
  | .condition _ _, .lit value => some { moment with stage := .failed (.nonBooleanCondition value) }
  | .loop target, next =>
    match target.reach? next with
    | some _ => some { moment with stage := .back next }
    | none =>
      some { moment with stage := .turn target next, waiting := .loop target :: moment.waiting }
  | _, _ => none

/-- The next moment, if there is one. -/
def next? (moment : Moment) : Option Moment :=
  match moment.stage, moment.waiting with
  | .begin target expr, waiting =>
    some { moment with stage := .turn target expr, waiting := .loop target :: waiting }
  | .turn _ expr, _ => some { moment with stage := .step expr, paid := moment.paid + 1 }
  | .step expr, _ => some (moment.step expr)
  | .back expr, frame :: waiting => { moment with waiting }.resume frame expr
  | .back _, [] | .failed _, _ => none

/-- What the evaluation ends with, if it ends here by itself. -/
def answer? (moment : Moment) : Option (Except EvalError Expr) :=
  match moment.stage, moment.waiting with
  | .back expr, [] => some (.ok expr)
  | .failed error, _ => some (.error error)
  | _, _ => none

end Moment

namespace Limits

/-- What the limits have against what is about to happen. -/
def objection? (limits : Limits) (moment : Moment) : Option EvalError :=
  match moment.stage with
  | .begin _ _ =>
    if limits.depth ≤ moment.loops then some (.tooDeep limits.depth)
    else if limits.frames ≤ moment.loops then some (.stackExhausted limits.depth)
    else none
  | .turn target _ =>
    if limits.iterations ≤ moment.paid then some (.outOfSteps target limits.iterations) else none
  | _ => none

/-- What an evaluation within limits ends with, if it ends here. -/
def verdict? (limits : Limits) (moment : Moment) : Option (Except EvalError Expr) :=
  match limits.objection? moment with
  | some error => some (.error error)
  | none => moment.answer?

section

variable (limits : Limits) (target : Target) (expr : Expr) (waiting : List Frame) (store : Store)
  (paid : Nat)

theorem objection?_begin : limits.objection? ⟨.begin target expr, waiting, store, paid⟩ =
    if limits.depth ≤ loopsIn waiting then some (.tooDeep limits.depth)
    else if limits.frames ≤ loopsIn waiting then some (.stackExhausted limits.depth)
    else none := rfl

theorem objection?_turn : limits.objection? ⟨.turn target expr, waiting, store, paid⟩ =
    if limits.iterations ≤ paid then some (.outOfSteps target limits.iterations) else none := rfl

theorem verdict?_begin : limits.verdict? ⟨.begin target expr, waiting, store, paid⟩ =
    if limits.depth ≤ loopsIn waiting then some (.error (.tooDeep limits.depth))
    else if limits.frames ≤ loopsIn waiting then some (.error (.stackExhausted limits.depth))
    else none := by
  rw [verdict?, objection?_begin]
  split_ifs <;> rfl

theorem verdict?_turn : limits.verdict? ⟨.turn target expr, waiting, store, paid⟩ =
    if limits.iterations ≤ paid then some (.error (.outOfSteps target limits.iterations))
    else none := by
  rw [verdict?, objection?_turn]
  split_ifs <;> rfl

end

/-- The evaluation does not end at the first moment, and comes to the second. -/
def Proceeds (limits : Limits) (moment moment' : Moment) : Prop :=
  limits.verdict? moment = none ∧ moment.next? = some moment'

/-- From the first moment the evaluation comes to the second. -/
abbrev Leads (limits : Limits) : Moment → Moment → Prop := Relation.ReflTransGen limits.Proceeds

variable {limits : Limits} {start moment moment' : Moment}

theorem rightUnique_proceeds (limits : Limits) : Relator.RightUnique limits.Proceeds :=
  fun _ _ _ h h' => Option.some.inj (h.2.symm.trans h'.2)

/-- An evaluation ends once. -/
theorem Leads.eq_of_verdict {last last' : Moment} (h : limits.Leads start last)
    (h' : limits.Leads start last') (hlast : (limits.verdict? last).isSome)
    (hlast' : (limits.verdict? last').isSome) : last = last' := by
  have stays {a b : Moment} (ends : (limits.verdict? a).isSome) (hab : limits.Leads a b) :
      a = b := by
    obtain rfl | ⟨c, hac, -⟩ := Relation.ReflTransGen.cases_head hab
    · rfl
    · rw [hac.1] at ends
      cases ends
  obtain hon | hon := Relation.ReflTransGen.total_of_right_unique (rightUnique_proceeds limits) h h'
  · exact stays hlast hon
  · exact (stays hlast' hon).symm

end Limits

/-! ### What every moment keeps -/

/-- The limits are kept, and no failure so far is about them. -/
structure Moment.Within (limits : Limits) (moment : Moment) : Prop where
  paid : moment.paid ≤ limits.iterations
  loops : moment.loops ≤ limits.depth
  failure : ∀ error, moment.stage = .failed error → error.isNonTermination = false

theorem loopsIn_nil : loopsIn [] = 0 := rfl

theorem loopsIn_cons (frame : Frame) (frames : List Frame) :
    loopsIn (frame :: frames) = loopsIn frames + if frame.isLoop then 1 else 0 := List.countP_cons

theorem loopsIn_append (frames frames' : List Frame) :
    loopsIn (frames ++ frames') = loopsIn frames + loopsIn frames' := List.countP_append

theorem Stage.isNonTermination_ofOutcome {x : Except EvalError Value} {error : EvalError}
    (fails : FailsOnly EvalError.OfOperator x) (h : ofOutcome (x.map .lit) = .failed error) :
    error.isNonTermination = false := by
  cases x with
  | ok value => cases h
  | error error' =>
    cases h
    cases fails error rfl <;> rfl

namespace Moment

variable {limits : Limits} {moment moment' : Moment}

theorem Within.withStage (h : moment.Within limits) (stage : Stage)
    (hstage : ∀ error, stage = .failed error → error.isNonTermination = false) :
    Within limits { moment with stage } := ⟨h.paid, h.loops, hstage⟩

theorem Within.push (h : moment.Within limits) (stage : Stage) (frame : Frame)
    (hstage : ∀ error, stage ≠ .failed error) (hframe : frame.isLoop = false) :
    Within limits { moment with stage, waiting := frame :: moment.waiting } where
  paid := h.paid
  loops := by
    show loopsIn (frame :: moment.waiting) ≤ limits.depth
    rw [loopsIn_cons, hframe]
    exact h.loops
  failure error herror := absurd herror (hstage error)

/-- The beginning of a step starts one loop at most, which then has to begin. -/
theorem Within.step (h : moment.Within limits) (expr : Expr) :
    (moment.step expr).Within limits := by
  cases expr with
  | lit | lam => exact h.withStage _ nofun
  | var id =>
    refine h.withStage _ fun error herror => ?_
    cases hbound : moment.store[id]? <;> rw [hbound] at herror <;> cases herror
    rfl
  | unary op operand =>
    cases operand with
    | lit value =>
      exact h.withStage _ fun _ => Stage.isNonTermination_ofOutcome (op.failsOnly_eval value)
    | _ => exact h.push (.step _) (.operand op) nofun rfl
  | binary op left right =>
    cases op with
    | strict op => exact h.push (.begin .value left) (.left op right) nofun rfl
    | apply => exact h.push (.begin .headNormal left) (.head right) nofun rfl
  | cond c t e => exact h.push (.begin .value c) (.condition t e) nofun rfl

theorem Within.pop {frame : Frame} {waiting : List Frame} (h : moment.Within limits)
    (hwaiting : moment.waiting = frame :: waiting) : Within limits { moment with waiting } where
  paid := h.paid
  loops := by
    have hloops : loopsIn moment.waiting ≤ limits.depth := h.loops
    rw [hwaiting, loopsIn_cons] at hloops
    exact Nat.le_of_add_right_le hloops
  failure := h.failure

/-- The room is that of the frame that has waited, in case it is a loop which goes on. -/
theorem Within.resume {frame : Frame} {expr : Expr} (h : moment.Within limits)
    (room : loopsIn (frame :: moment.waiting) ≤ limits.depth)
    (hnext : moment.resume frame expr = some moment') : moment'.Within limits := by
  revert hnext
  fun_cases Moment.resume moment frame expr <;> rintro ⟨⟩
  case case2 op right a => exact h.push (.begin .value right) (.right op a) nofun rfl
  case case3 op a b =>
    exact h.withStage _ fun _ => Stage.isNonTermination_ofOutcome (op.failsOnly_eval a b)
  case case6 | case9 =>
    refine h.withStage _ ?_
    rintro _ ⟨⟩
    rfl
  case case11 => exact ⟨h.paid, room, nofun⟩
  all_goals exact ⟨h.paid, h.loops, nofun⟩

/-- Where the limits have no objection, the next moment is within them too. -/
theorem Within.next (h : moment.Within limits) (hnext : limits.Proceeds moment moment') :
    moment'.Within limits := by
  obtain ⟨hverdict, hnext⟩ := hnext
  obtain ⟨stage, waiting, store, paid⟩ := moment
  cases stage with
  | begin target expr =>
    cases hnext
    have room : loopsIn waiting < limits.depth := by
      by_contra hdepth
      rw [Limits.verdict?_begin, if_pos (Nat.le_of_not_lt hdepth)] at hverdict
      cases hverdict
    refine ⟨h.paid, ?_, nofun⟩
    show loopsIn (.loop target :: waiting) ≤ limits.depth
    rw [loopsIn_cons]
    exact room
  | turn target expr =>
    cases hnext
    have funds : paid < limits.iterations := by
      by_contra hspent
      rw [Limits.verdict?_turn, if_pos (Nat.le_of_not_lt hspent)] at hverdict
      cases hverdict
    exact ⟨funds, h.loops, nofun⟩
  | step expr =>
    cases hnext
    exact h.step expr
  | back expr =>
    cases waiting with
    | nil => cases hnext
    | cons frame waiting => exact (h.pop rfl).resume h.loops hnext
  | failed error => cases hnext

theorem Within.leads (h : moment.Within limits) (leads : limits.Leads moment moment') :
    moment'.Within limits := by
  induction leads with
  | refl => exact h
  | tail _ hnext ih => exact ih.next hnext

theorem answer?_eq_error {error : EvalError} (h : moment.answer? = some (.error error)) :
    moment.stage = .failed error := by
  obtain ⟨stage, waiting, store, paid⟩ := moment
  cases stage with
  | failed error' =>
    cases h
    rfl
  | back expr => cases waiting <;> cases h
  | _ => cases h

/-- An evaluation within its limits ends with an error about them only where they object. -/
theorem Within.objection?_eq_some {error : EvalError} (h : moment.Within limits)
    (limited : error.isNonTermination = true)
    (hverdict : limits.verdict? moment = some (.error error)) :
    limits.objection? moment = some error := by
  rw [Limits.verdict?] at hverdict
  cases hobjection : limits.objection? moment with
  | some error' =>
    rw [hobjection] at hverdict
    cases hverdict
    rfl
  | none =>
    rw [hobjection] at hverdict
    rw [h.failure error (answer?_eq_error hverdict)] at limited
    cases limited

theorem Within.verdict?_eq_outOfSteps_iff (h : moment.Within limits) (target : Target) :
    limits.verdict? moment = some (.error (.outOfSteps target limits.iterations)) ↔
      (∃ expr, moment.stage = .turn target expr) ∧ moment.paid = limits.iterations := by
  obtain ⟨stage, waiting, store, paid⟩ := moment
  constructor
  · intro hverdict
    have hobjection := h.objection?_eq_some rfl hverdict
    cases stage with
    | turn target' expr =>
      rw [Limits.objection?_turn] at hobjection
      split_ifs at hobjection with hspent
      cases hobjection
      exact ⟨⟨expr, rfl⟩, Nat.le_antisymm h.paid hspent⟩
    | begin target' expr =>
      rw [Limits.objection?_begin] at hobjection
      split_ifs at hobjection <;> cases hobjection
    | _ => cases hobjection
  · rintro ⟨⟨expr, rfl⟩, rfl⟩
    rw [Limits.verdict?_turn, if_pos (Nat.le_refl _)]

theorem Within.verdict?_eq_tooDeep_iff (h : moment.Within limits) :
    limits.verdict? moment = some (.error (.tooDeep limits.depth)) ↔
      (∃ target expr, moment.stage = .begin target expr) ∧ moment.loops = limits.depth := by
  obtain ⟨stage, waiting, store, paid⟩ := moment
  constructor
  · intro hverdict
    have hobjection := h.objection?_eq_some rfl hverdict
    cases stage with
    | begin target expr =>
      rw [Limits.objection?_begin] at hobjection
      split_ifs at hobjection with hdepth <;> cases hobjection
      exact ⟨⟨target, expr, rfl⟩, Nat.le_antisymm h.loops hdepth⟩
    | turn target expr =>
      rw [Limits.objection?_turn] at hobjection
      split_ifs at hobjection
      cases hobjection
    | _ => cases hobjection
  · rintro ⟨⟨target, expr, rfl⟩, hloops⟩
    replace hloops : loopsIn waiting = limits.depth := hloops
    rw [Limits.verdict?_begin, if_pos (Nat.le_of_eq hloops.symm)]

end Moment

/-! ### The machine on its course -/

/-- The moment of a machine, with the steps paid for out of the whole budget. -/
def Machine.moment (m : Machine) (limits : Limits) (stage : Stage) (waiting : List Frame) :
    Moment :=
  ⟨stage, waiting, m.bindings, limits.iterations - m.remaining⟩

namespace EvalM

variable {α β : Type} {limits : Limits} {bound : Nat} {toExpr : α → Expr} {stage : Stage}
  {frames waiting : List Frame}

/-- A computation ends at this moment: with a result, which goes to what waits, or where the limits
object or something fails. -/
def EndsAt (limits : Limits) (toExpr : α → Expr) (waiting : List Frame) :
    EStateM.Result EvalError Machine α → Moment → Prop
  | .ok a m, last => last = m.moment limits (.back (toExpr a)) waiting
  | .error error m, last => limits.verdict? last = some (.error error) ∧
    last.store = m.bindings ∧ last.paid = limits.iterations - m.remaining

/-- Inside a loop, the computation goes from a stage through the frames of its own.  The budget of
the machine is not above the bound. -/
def Takes (limits : Limits) (bound : Nat) (toExpr : α → Expr) (stage : Stage)
    (frames : List Frame) (x : EvalM α) : Prop :=
  ∀ waiting m, m.loops = loopsIn (frames ++ waiting) → m.loops ≠ 0 → m.remaining ≤ bound →
    (after (x.run m)).loops = m.loops ∧ (after (x.run m)).remaining ≤ m.remaining ∧
      ∃ last, limits.Leads (m.moment limits stage (frames ++ waiting)) last ∧
        EndsAt limits toExpr waiting (x.run m) last

theorem Takes.countStep {x : EvalM α} (h : Takes limits bound toExpr stage frames x) :
    Takes limits bound toExpr stage frames (do EvalM.countStep; x) :=
  fun waiting m => h waiting { m with steps := m.steps + 1 }

/-- A computation without loops that makes one move of the course. -/
theorem Takes.leaf {x : EvalM α}
    (h : ∀ waiting m, (after (x.run m)).loops = m.loops ∧
      (after (x.run m)).remaining = m.remaining ∧
      limits.Proceeds (m.moment limits stage (frames ++ waiting))
        ((after (x.run m)).moment limits (.ofOutcome (outcome toExpr (x.run m))) waiting)) :
    Takes limits bound toExpr stage frames x := by
  intro waiting m _ _ _
  obtain ⟨hloops, hremaining, hnext⟩ := h waiting m
  refine ⟨hloops, Nat.le_of_eq hremaining, _, .single hnext, ?_⟩
  cases x.run m with
  | ok a m' => exact rfl
  | error error m' => exact ⟨rfl, rfl, rfl⟩

theorem takes_pure {a : α}
    (hnext : ∀ waiting store paid, limits.Proceeds ⟨stage, frames ++ waiting, store, paid⟩
      ⟨.back (toExpr a), waiting, store, paid⟩) :
    Takes limits bound toExpr stage frames (pure a) :=
  .leaf fun waiting m => ⟨rfl, rfl, hnext waiting m.bindings _⟩

theorem takes_throw {error : EvalError}
    (hnext : ∀ waiting store paid, limits.Proceeds ⟨stage, frames ++ waiting, store, paid⟩
      ⟨.failed error, waiting, store, paid⟩) :
    Takes limits bound toExpr stage frames (throw error) :=
  .leaf fun waiting m => ⟨rfl, rfl, hnext waiting m.bindings _⟩

/-- What is settled by an operator goes back to the next frame, or fails. -/
theorem takes_ofExcept {x : Except EvalError Value}
    (hnext : ∀ waiting store paid, limits.Proceeds ⟨stage, frames ++ waiting, store, paid⟩
      ⟨.ofOutcome (x.map .lit), waiting, store, paid⟩) :
    Takes limits bound id stage frames (do return .lit (← ofExcept x)) := by
  cases x with
  | ok value => exact takes_pure hnext
  | error error => exact takes_throw hnext

theorem takes_lookup (id : Int) :
    Takes limits bound (fun arg => arg) (.step (.var id)) [] (lookup id) := by
  refine .leaf fun waiting m => ?_
  have hnext : (m.moment limits (.step (.var id)) waiting).next? =
      some ((m.moment limits · waiting) (match m.bindings[id]? with
        | some arg => .back arg
        | none => .failed (.unboundVariable id))) := rfl
  rw [run_lookup]
  cases hbound : m.bindings[id]? <;> rw [hbound] at hnext <;> exact ⟨rfl, rfl, rfl, hnext⟩

theorem takes_bindArg (binder : Int) (body arg : Expr) :
    Takes limits bound id (.back (.lam binder body)) [.head arg]
      (do bindArg binder arg; return body) :=
  .leaf fun _ _ => ⟨rfl, rfl, rfl, rfl⟩

/-- The computation at the next stage, where the frames of its own hold as many loops. -/
theorem Takes.proceed {stage' : Stage} {frames' : List Frame} {x : EvalM α}
    (h : Takes limits bound toExpr stage' frames' x) (same : loopsIn frames' = loopsIn frames)
    (hnext : ∀ waiting store paid,
      limits.Proceeds ⟨stage, frames ++ waiting, store, paid⟩
        ⟨stage', frames' ++ waiting, store, paid⟩) :
    Takes limits bound toExpr stage frames x := by
  intro waiting m hloops busy hbound
  have hloops' : m.loops = loopsIn (frames' ++ waiting) := by
    rw [hloops, loopsIn_append, loopsIn_append, same]
  obtain ⟨hafter, hremaining, last, leads, ends⟩ := h waiting m hloops' busy hbound
  exact ⟨hafter, hremaining, last, .head (hnext waiting m.bindings _) leads, ends⟩

/-- A computation whose result goes to the frame of another one. -/
theorem Takes.bind {toExpr' : β → Expr} {x : EvalM α} {f : α → EvalM β}
    (hx : Takes limits bound toExpr stage [] x) (frame : Frame)
    (hf : ∀ a, Takes limits bound toExpr' (.back (toExpr a)) [frame] (f a)) :
    Takes limits bound toExpr' stage [frame] (x >>= f) := by
  intro waiting m hloops busy hbound
  obtain ⟨hafter, hremaining, last, leads, ends⟩ := hx (frame :: waiting) m hloops busy hbound
  cases hrun : x.run m with
  | error error m₁ =>
    rw [hrun] at hafter hremaining ends
    rw [run_bind_of_error hrun]
    exact ⟨hafter, hremaining, last, leads, ends⟩
  | ok a m₁ =>
    rw [hrun] at hafter hremaining ends
    rw [run_bind_of_ok hrun]
    replace hafter : m₁.loops = m.loops := hafter
    replace hremaining : m₁.remaining ≤ m.remaining := hremaining
    obtain ⟨hafter', hremaining', last', leads', ends'⟩ := hf a waiting m₁ (hafter.trans hloops)
      (hafter.symm ▸ busy) (Nat.le_trans hremaining hbound)
    obtain rfl : last = _ := ends
    exact ⟨hafter'.trans hafter, Nat.le_trans hremaining' hremaining, last', leads.trans leads',
      ends'⟩

theorem takes_stepWith {run : (target : Target) → Expr → EvalM target.Result}
    (hrun : ∀ target expr,
      Takes limits bound target.toExpr (.begin target expr) [] (run target expr))
    (expr : Expr) : Takes limits bound id (.step expr) [] (expr.stepWith run) := by
  induction expr with
  | lit value => exact Takes.countStep (takes_pure fun _ _ _ => ⟨rfl, rfl⟩)
  | lam binder body => exact Takes.countStep (takes_pure fun _ _ _ => ⟨rfl, rfl⟩)
  | var id => exact Takes.countStep (takes_lookup id)
  | unary op operand ih =>
    by_cases hlit : ∃ value, operand = .lit value
    · obtain ⟨value, rfl⟩ := hlit
      exact Takes.countStep (takes_ofExcept fun _ _ _ => ⟨rfl, rfl⟩)
    · have stuck : ∀ value, operand ≠ .lit value := fun value h => hlit ⟨value, h⟩
      rw [Expr.stepWith_unary op stuck]
      refine Takes.countStep ((ih.bind (.operand op) fun next => ?_).proceed rfl ?_)
      · exact takes_pure fun _ _ _ => ⟨rfl, rfl⟩
      · intro waiting store paid
        refine ⟨rfl, ?_⟩
        cases operand with
        | lit value => exact absurd rfl (stuck value)
        | _ => rfl
  | binary op left right ihl ihr =>
    cases op with
    | strict op =>
      refine Takes.countStep (((hrun .value left).bind (.left op right) fun a => ?_).proceed
        rfl fun _ _ _ => ⟨rfl, rfl⟩)
      refine ((hrun .value right).bind (.right op a) fun b => ?_).proceed
        rfl fun _ _ _ => ⟨rfl, rfl⟩
      exact takes_ofExcept fun _ _ _ => ⟨rfl, rfl⟩
    | apply =>
      refine Takes.countStep (((hrun .headNormal left).bind (.head right) fun head => ?_).proceed
        rfl fun _ _ _ => ⟨rfl, rfl⟩)
      cases head with
      | lam binder body => exact takes_bindArg binder body right
      | lit value => exact takes_throw fun _ _ _ => ⟨rfl, rfl⟩
      | var id => exact takes_pure fun _ _ _ => ⟨rfl, rfl⟩
  | cond condition thenBranch elseBranch ihc iht ihe =>
    refine Takes.countStep (((hrun .value condition).bind (.condition thenBranch elseBranch)
      fun value => ?_).proceed rfl fun _ _ _ => ⟨rfl, rfl⟩)
    cases value with
    | bool b => cases b <;> exact takes_pure fun _ _ _ => ⟨rfl, rfl⟩
    | str s => exact takes_throw fun _ _ _ => ⟨rfl, rfl⟩
    | int n => exact takes_throw fun _ _ _ => ⟨rfl, rfl⟩

theorem after_leaveLoop (r : EStateM.Result EvalError Machine α) :
    after (leaveLoop r) = { after r with loops := (after r).loops - 1 } := by
  cases r <;> rfl

theorem EndsAt.leaveLoop {r : EStateM.Result EvalError Machine α} {last : Moment}
    (h : EndsAt limits toExpr waiting r last) :
    EndsAt limits toExpr waiting (EvalM.leaveLoop r) last := by
  cases r <;> exact h

/-- Where a loop is to begin inside another one, the machine and the limits object to the same. -/
theorem Takes.inLoop {target : Target} {expr : Expr} {x : EvalM α}
    (h : Takes limits bound toExpr (.turn target expr) [.loop target] x) :
    Takes limits bound toExpr (.begin target expr) [] (EvalM.inLoop limits x) := by
  intro waiting m hloops busy hbound
  replace hloops : m.loops = loopsIn waiting := hloops
  have hverdict := limits.verdict?_begin target expr waiting m.bindings
    (limits.iterations - m.remaining)
  rw [← hloops] at hverdict
  rw [run_inLoop_inner limits x busy]
  split_ifs with hdepth hframes
  · rw [if_pos hdepth] at hverdict
    exact ⟨rfl, Nat.le_refl _, _, .refl, hverdict, rfl, rfl⟩
  · rw [if_neg hdepth, if_pos hframes] at hverdict
    exact ⟨rfl, Nat.le_refl _, _, .refl, hverdict, rfl, rfl⟩
  · rw [if_neg hdepth, if_neg hframes] at hverdict
    have inner : m.loops + 1 = loopsIn (.loop target :: waiting) := by
      rw [hloops, loopsIn_cons]
      rfl
    obtain ⟨hafter, hremaining, last, leads, ends⟩ :=
      h waiting { m with loops := m.loops + 1 } inner (Nat.succ_ne_zero _) hbound
    rw [after_leaveLoop]
    exact ⟨congrArg (· - 1) hafter, hremaining, last, .head ⟨hverdict, rfl⟩ leads, ends.leaveLoop⟩

section

variable {target : Target} {expr next : Expr} {m : Machine}

theorem takes_iterate_of_spent (spent : m.remaining = 0) :
    let r := (iterate limits bound target expr).run m
    (after r).loops = m.loops ∧ (after r).remaining ≤ m.remaining ∧
      ∃ last, limits.Leads (m.moment limits (.turn target expr) frames) last ∧
        EndsAt limits target.toExpr waiting r last := by
  intro r
  have hr : r = .error (.outOfSteps target limits.iterations) m :=
    run_iterate_of_spent limits bound target expr spent
  have hverdict := limits.verdict?_turn target expr frames m.bindings
    (limits.iterations - m.remaining)
  rw [if_pos (Nat.le_of_eq (by rw [spent, Nat.sub_zero]))] at hverdict
  rw [hr]
  exact ⟨rfl, Nat.le_refl _, _, .refl, hverdict, rfl, rfl⟩

/-- A loop with a step left takes it. -/
theorem proceeds_turn (target : Target) (expr : Expr) (frames : List Frame)
    (paid : m.remaining ≠ 0) (within : m.remaining ≤ limits.iterations) :
    limits.Proceeds (m.moment limits (.turn target expr) frames)
      (Machine.moment { m with remaining := m.remaining - 1 } limits (.step expr) frames) := by
  have hverdict := limits.verdict?_turn target expr frames m.bindings
    (limits.iterations - m.remaining)
  rw [if_neg (by omega)] at hverdict
  have hpaid : limits.iterations - m.remaining + 1 = limits.iterations - (m.remaining - 1) := by
    omega
  exact ⟨hverdict,
    congrArg (fun paid => some (Moment.mk (.step expr) frames m.bindings paid)) hpaid⟩

theorem proceeds_of_reach {result : target.Result} (reached : target.reach? next = some result) :
    limits.Proceeds (m.moment limits (.back next) (.loop target :: waiting))
      (m.moment limits (.back next) waiting) := by
  refine ⟨rfl, ?_⟩
  show Moment.resume _ (.loop target) next = _
  rw [Moment.resume, reached]
  rfl

theorem proceeds_of_not_reach (short : target.reach? next = none) :
    limits.Proceeds (m.moment limits (.back next) (.loop target :: waiting))
      (m.moment limits (.turn target next) (.loop target :: waiting)) := by
  refine ⟨rfl, ?_⟩
  show Moment.resume _ (.loop target) next = _
  rw [Moment.resume, short]
  rfl

end

/-- The induction is on the bound: the steps of a loop, and all that is done inside them, are paid
for out of what is left of the budget, which the bound is not below. -/
theorem takes_iterate (limits : Limits) {bound : Nat} (hbound : bound ≤ limits.iterations)
    (target : Target) (expr : Expr) :
    Takes limits bound target.toExpr (.turn target expr) [.loop target]
      (iterate limits bound target expr) := by
  induction bound generalizing target expr with
  | zero => exact fun waiting m _ _ hremaining => takes_iterate_of_spent (Nat.le_zero.1 hremaining)
  | succ bound ih =>
    intro waiting m hloops busy hremaining
    by_cases hspent : m.remaining = 0
    · exact takes_iterate_of_spent hspent
    have hbound' : bound ≤ limits.iterations := Nat.le_of_succ_le hbound
    have hpaid := proceeds_turn target expr (.loop target :: waiting) hspent
      (Nat.le_trans hremaining hbound)
    have hstep := takes_stepWith (fun target expr => (ih hbound' target expr).inLoop) expr
    obtain ⟨hafter, hleft, last, leads, ends⟩ := hstep (.loop target :: waiting)
      { m with remaining := m.remaining - 1 } hloops busy (Nat.sub_le_of_le_add hremaining)
    rw [run_iterate_succ limits bound target expr hspent]
    cases hx : (expr.stepWith fun target expr =>
        inLoop limits (iterate limits bound target expr)).run
        { m with remaining := m.remaining - 1 } with
    | error error m' =>
      rw [hx] at hafter hleft ends
      rw [run_bind_of_error hx]
      exact ⟨hafter, Nat.le_trans hleft (Nat.sub_le _ _), last, .head hpaid leads, ends⟩
    | ok next m' =>
      rw [hx] at hafter hleft ends
      rw [run_bind_of_ok hx]
      replace hafter : m'.loops = m.loops := hafter
      replace hleft : m'.remaining ≤ m.remaining - 1 := hleft
      obtain rfl : last = _ := ends
      cases hreach : target.reach? next with
      | some result =>
        obtain ⟨trace, harrive⟩ := run_arrive_of_reach limits bound m' hreach
        rw [harrive]
        refine ⟨hafter, Nat.le_trans hleft (Nat.sub_le _ _), _,
          (Relation.ReflTransGen.head hpaid leads).tail (proceeds_of_reach hreach), ?_⟩
        rw [EndsAt, Target.toExpr_of_reach? hreach]
        rfl
      | none =>
        obtain ⟨trace, harrive⟩ := run_arrive_of_not_reach limits bound m' hreach
        rw [harrive]
        obtain ⟨hafter', hleft', last, leads', ends'⟩ := ih hbound' target next waiting
          { m' with trace } (hafter.trans hloops) (hafter.symm ▸ busy)
          (Nat.le_trans hleft (Nat.sub_le_of_le_add hremaining))
        exact ⟨hafter'.trans hafter,
          Nat.le_trans hleft' (Nat.le_trans hleft (Nat.sub_le _ _)), last,
          (Relation.ReflTransGen.head hpaid leads).trans
            (.head (proceeds_of_not_reach hreach) leads'), ends'⟩

theorem EndsAt.verdict {r : EStateM.Result EvalError Machine α} {last : Moment}
    (h : EndsAt limits toExpr [] r last) : limits.verdict? last = some (outcome toExpr r) ∧
      last.store = (after r).bindings ∧ last.paid = limits.iterations - (after r).remaining := by
  cases r with
  | ok a m =>
    obtain rfl : last = _ := h
    exact ⟨rfl, rfl, rfl⟩
  | error error m => exact h

/-- An outermost loop takes its course to the end or to the first objection. -/
theorem runLoop_leads {limits : Limits} (hdepth : 0 < limits.depth) (hframes : 0 < limits.frames)
    {m : Machine} (idle : m.loops = 0) (target : Target) (expr : Expr) :
    let r := (runLoop limits target expr).run m
    ∃ last, limits.Leads ⟨.begin target expr, [], m.bindings, 0⟩ last ∧
      limits.verdict? last = some (outcome target.toExpr r) ∧ last.store = (after r).bindings ∧
      last.paid + (after r).remaining = limits.iterations ∧ (after r).loops = 0 := by
  intro r
  obtain ⟨hafter, hremaining, last, leads, ends⟩ := takes_iterate limits (Nat.le_refl _) target expr
    [] { m with remaining := limits.iterations, loops := 1 } rfl Nat.one_ne_zero (Nat.le_refl _)
  have hr : r = leaveLoop ((iterate limits limits.iterations target expr).run
      { m with remaining := limits.iterations, loops := 1 }) := run_inLoop_of_idle idle
  have begins : limits.Proceeds ⟨.begin target expr, [], m.bindings, 0⟩
      ⟨.turn target expr, [.loop target], m.bindings, limits.iterations - limits.iterations⟩ := by
    refine ⟨?_, by rw [Nat.sub_self]; rfl⟩
    rw [Limits.verdict?_begin, loopsIn_nil, if_neg (Nat.not_le.2 hdepth),
      if_neg (Nat.not_le.2 hframes)]
  obtain ⟨hverdict, hstore, hpaid⟩ := ends.leaveLoop.verdict
  rw [← hr] at hverdict hstore hpaid
  have hr_after := congrArg after hr
  rw [after_leaveLoop] at hr_after
  have hleft : (after r).remaining ≤ limits.iterations := by
    rw [hr_after]
    exact hremaining
  refine ⟨last, .head begins leads, hverdict, hstore, ?_, ?_⟩
  · rw [hpaid, Nat.sub_add_cancel hleft]
  · rw [hr_after]
    exact congrArg (· - 1) hafter

end EvalM

/-! ### Main result -/

open EvalM in
/-- Every outermost loop ends, with a result or an error, whatever the bindings are: the loop of
`Expr.evaluate` as well as that of `Expr.toHeadNormal`.  On the way the loops together never pay for
more steps than the budget has, and never more loops are in progress than allowed.  Running out of
steps is the error exactly if a loop asks for a step when the whole budget is used, and nesting too
deep is the error exactly if a loop would begin when as many as allowed are in progress. -/
theorem runLoop_course {limits : Limits} (hdepth : 0 < limits.depth) (hframes : 0 < limits.frames)
    {m : Machine} (idle : m.loops = 0) (target : Target) (expr : Expr) :
    let start : Moment := ⟨.begin target expr, [], m.bindings, 0⟩
    let r := (runLoop limits target expr).run m
    (∃ last, limits.Leads start last ∧ limits.verdict? last = some (outcome target.toExpr r) ∧
      last.store = (after r).bindings ∧ last.paid + (after r).remaining = limits.iterations ∧
      (after r).loops = 0) ∧
    (∀ moment, limits.Leads start moment →
      moment.paid ≤ limits.iterations ∧ moment.loops ≤ limits.depth) ∧
    (∀ target', outcome target.toExpr r = .error (.outOfSteps target' limits.iterations) ↔
      ∃ moment, limits.Leads start moment ∧
        (∃ expr', moment.stage = .turn target' expr') ∧ moment.paid = limits.iterations) ∧
    (outcome target.toExpr r = .error (.tooDeep limits.depth) ↔
      ∃ moment, limits.Leads start moment ∧
        (∃ target' expr', moment.stage = .begin target' expr') ∧
          moment.loops = limits.depth) := by
  intro start r
  have starts : Moment.Within limits ⟨.begin target expr, [], m.bindings, 0⟩ :=
    ⟨Nat.zero_le _, Nat.zero_le _, nofun⟩
  have within {moment : Moment} (leads : limits.Leads start moment) : moment.Within limits :=
    starts.leads leads
  obtain ⟨last, leads, hverdict, hstore, hpaid, hloops⟩ :=
    runLoop_leads hdepth hframes idle target expr
  -- An error that the limits give at one moment is that of the end, as an evaluation ends once.
  have ends_iff (error : EvalError) : outcome target.toExpr r = .error error ↔
      ∃ moment, limits.Leads start moment ∧ limits.verdict? moment = some (.error error) := by
    constructor
    · exact fun h => ⟨last, leads, by rw [hverdict, h]⟩
    · rintro ⟨moment, hmoment, herror⟩
      obtain rfl := Limits.Leads.eq_of_verdict leads hmoment (by rw [hverdict]; rfl)
        (by rw [herror]; rfl)
      exact Option.some.inj (hverdict.symm.trans herror)
  refine ⟨⟨last, leads, hverdict, hstore, hpaid, hloops⟩,
    fun moment hmoment => ⟨(within hmoment).paid, (within hmoment).loops⟩, fun target' => ?_, ?_⟩
  · rw [ends_iff]
    exact exists_congr fun moment => and_congr_right fun hmoment =>
      (within hmoment).verdict?_eq_outOfSteps_iff target'
  · rw [ends_iff]
    exact exists_congr fun moment => and_congr_right fun hmoment =>
      (within hmoment).verdict?_eq_tooDeep_iff

/-- A variable that is bound to itself uses up four steps; one that is bound to a sum with itself
nests loops until they are too deep. -/
theorem runLoop_course_cyclic :
    let limits : Limits := { iterations := 4, depth := 2 }
    let itself : Store := .insert ∅ 0 (.var 0)
    let sum : Store := .insert ∅ 0 (.binary (.strict .add) (.var 0) (.lit (.int 1)))
    (∃ moment, limits.Leads ⟨.begin .value (.var 0), [], itself, 0⟩ moment ∧
      (∃ expr, moment.stage = .turn .value expr) ∧ moment.paid = 4) ∧
    ∃ moment, limits.Leads ⟨.begin .headNormal (.var 0), [], sum, 0⟩ moment ∧
      (∃ target expr, moment.stage = .begin target expr) ∧ moment.loops = 2 := by
  intro limits itself sum
  have hdepth : 0 < limits.depth := by decide
  have hframes : 0 < limits.frames := by decide
  obtain ⟨-, -, spent, -⟩ := runLoop_course (m := { bindings := itself }) hdepth hframes rfl .value
    (.var 0)
  obtain ⟨-, -, -, deep⟩ := runLoop_course (m := { bindings := sum }) hdepth hframes rfl .headNormal
    (.var 0)
  exact ⟨(spent .value).1 (by decide +kernel), deep.1 (by decide +kernel)⟩

end Lambda94
