import Lambda94.Eval.Text
import Lambda94.Proofs.Closed
import Lambda94.Proofs.FlatStore

/-!
# Soundness of the machine

What the evaluation of a closed program on a fresh machine says about evaluation by name.  The value
is that of evaluation by name if no binding of the run clobbers:
`evaluateText_sound_of_not_clobbers`.  Without that condition it need not be, although every
function has a binder of its own: `evaluateText_clobbered` is a program that applies one function
twice, the second time inside an argument of the first.  If the machine overwrites no argument at
all, the values and also the errors are those of evaluation by name, except for errors about the
limits: `evaluate_agrees_of_nothingOverwritten`.
-/

namespace Lambda94

open EvalM

/-- The expression of a closed text is closed. -/
theorem closed_of_ofText {text : Text} {tree : ParseTree} {expr : Expr}
    (parsed : ParseTree.ofText text = .ok tree) (closed : tree.Closed)
    (read : Expr.ofText text = .ok expr) : expr.Closed := by
  obtain ⟨program, hprogram, rfl⟩ := Expr.ofText_eq_ok_iff.1 read
  obtain ⟨tree', parsed', renamed, -⟩ := Program.renamed_of_ofText hprogram
  obtain rfl : tree = tree' := Except.ok.inj (parsed.symm.trans parsed')
  exact renamed.closed closed

/-- The value of a text is the value that the machine reaches. -/
theorem run_of_evaluateText {limits : Limits} {text : Text} {expr : Expr} {value : Value}
    (read : Expr.ofText text = .ok expr) (evaluated : evaluateText limits text = .ok value) :
    ∃ m, (expr.evaluate limits).run {} = .ok value m := by
  rw [evaluateText_of_ofText read] at evaluated
  cases hrun : (expr.evaluate limits).run {} with
  | ok value' m =>
    rw [hrun] at evaluated
    cases evaluated
    exact ⟨m, rfl⟩
  | error error m =>
    rw [hrun] at evaluated
    cases evaluated

/-! ### Main results -/

/-- If the machine finds a value for a closed text, it has run to that value from the empty store,
and the value is that of evaluation by name unless a binding of the run clobbers: something that is
still needed stands for something else from then on. -/
theorem evaluateText_sound_of_not_clobbers {text : Text} {tree : ParseTree} {expr : Expr}
    (parsed : ParseTree.ofText text = .ok tree) (closed : tree.Closed)
    (read : Expr.ofText text = .ok expr) (limits : Limits) {value : Value}
    (evaluated : evaluateText limits text = .ok value) :
    (∃ log store, Run [] (.loop .value expr) ∅ log (.ok (.lit value)) store) ∧
      ∀ log store, Run [] (.loop .value expr) ∅ log (.ok (.lit value)) store →
        (∀ binding ∈ log, ¬ binding.Clobbers) → expr.Evaluates (.ok (.value value)) := by
  constructor
  · obtain ⟨m, hrun⟩ := run_of_evaluateText read evaluated
    obtain ⟨log, h, -⟩ := (follows_runLoop limits .value expr).run_of_fresh
    rw [show (runLoop limits .value expr).run {} = .ok value m from hrun] at h
    exact ⟨log, m.bindings, h⟩
  · intro log store h harmless
    exact (h.simulated harmless (.of_closed (closed_of_ofText parsed closed read))).evaluates_value

/-- One function applied twice, one application after the other: the second binding overwrites the
argument of the first, which nothing needs any more. -/
theorem evaluateText_sound_applied_twice :
    ∃ tree expr log store, ParseTree.ofText "B$ L! B+ B$ v! I\" B$ v! I# L! v!" = .ok tree ∧
      tree.Closed ∧ Expr.ofText "B$ L! B+ B$ v! I\" B$ v! I# L! v!" = .ok expr ∧
      evaluateText {} "B$ L! B+ B$ v! I\" B$ v! I# L! v!" = .ok (.int 3) ∧
      Run [] (.loop .value expr) ∅ log (.ok (.lit (.int 3))) store ∧
      (∃ binding ∈ log, binding.Overwrites) ∧ (∀ binding ∈ log, ¬ binding.Clobbers) ∧
      expr.Evaluates (.ok (.value (.int 3))) := by
  let tree : ParseTree :=
    .node .binary (.ofLiteral "B$" 0)
      [.node .lambda (.ofLiteral "L!" 1)
        [.node .binary (.ofLiteral "B+" 2)
          [.node .binary (.ofLiteral "B$" 3)
              [.node .variable (.ofLiteral "v!" 4) [], .node .integer (.ofLiteral "I\"" 5) []],
            .node .binary (.ofLiteral "B$" 6)
              [.node .variable (.ofLiteral "v!" 7) [], .node .integer (.ofLiteral "I#" 8) []]]],
        .node .lambda (.ofLiteral "L!" 9) [.node .variable (.ofLiteral "v!" 10) []]]
  let first : Expr := .app (.var (-1)) (.lit (.int 1))
  let second : Expr := .app (.var (-1)) (.lit (.int 2))
  let identity : Expr := .lam (-2) (.var (-2))
  let expr : Expr := .app (.lam (-1) (.binary (.strict .add) first second)) identity
  let store₁ : Store := Std.TreeMap.insert ∅ (-1) identity
  let store₂ : Store := store₁.insert (-2) (.lit (.int 1))
  let store₃ : Store := store₂.insert (-2) (.lit (.int 2))
  let binding₁ : Binding := ⟨[], ∅, -1, .binary (.strict .add) first second, identity⟩
  let binding₂ : Binding := ⟨[second], store₁, -2, .var (-2), .lit (.int 1)⟩
  let binding₃ : Binding := ⟨[], store₂, -2, .var (-2), .lit (.int 2)⟩
  have parsed : ParseTree.ofText "B$ L! B+ B$ v! I\" B$ v! I# L! v!" = .ok tree := by cbv
  have closed : tree.Closed := ParseTree.closed_of_closedUnder (by cbv)
  have read : Expr.ofText "B$ L! B+ B$ v! I\" B$ v! I# L! v!" = .ok expr := by cbv
  have evaluated : evaluateText {} "B$ L! B+ B$ v! I\" B$ v! I# L! v!" = .ok (.int 3) := by
    decide +kernel
  have hleft : Run [second] (.loop .value first) store₁ [binding₂] (.ok (.lit (.int 1))) store₂ :=
    .next (.apply (.reach (.var rfl) rfl)) rfl (.reach (.var rfl) rfl)
  have hright : Run [] (.loop .value second) store₂ [binding₃] (.ok (.lit (.int 2))) store₃ :=
    .next (.apply (.reach (.var rfl) rfl)) rfl (.reach (.var rfl) rfl)
  have hsum := Run.strict .add hleft hright
  have run : Run [] (.loop .value expr) ∅ [binding₁, binding₂, binding₃] (.ok (.lit (.int 3)))
      store₃ :=
    .next (.apply (.reach (.lam _ _) rfl)) rfl (.reach hsum rfl)
  have hfresh : ¬ binding₂.Overwrites := by decide +kernel
  have harmless : ∀ binding ∈ [binding₁, binding₂, binding₃], ¬ binding.Clobbers := by
    intro binding hbinding
    simp only [List.mem_cons, List.not_mem_nil, or_false] at hbinding
    rcases hbinding with rfl | rfl | rfl
    · exact Binding.not_clobbers_of_closed (by decide)
    · exact fun h => hfresh h.overwrites
    · exact Binding.not_clobbers_of_closed (by decide)
  exact ⟨tree, expr, _, _, parsed, closed, read, evaluated, run,
    ⟨binding₃, .tail _ (.tail _ (.head _)), by decide +kernel⟩, harmless,
    (evaluateText_sound_of_not_clobbers parsed closed read {} evaluated).2 _ _ run harmless⟩

/-- One function applied twice, the second time inside the argument of the first: the binding of `0`
takes the place of the outer argument before that is used, and the machine adds `10` and `10`. -/
theorem evaluateText_clobbered :
    ∃ tree expr, ParseTree.ofText "B$ L! B$ B$ v! I\" B$ B$ v! I+ I! L! L\" B+ v\" v!" = .ok tree ∧
      tree.Closed ∧ Expr.ofText "B$ L! B$ B$ v! I\" B$ B$ v! I+ I! L! L\" B+ v\" v!" = .ok expr ∧
      evaluateText {} "B$ L! B$ B$ v! I\" B$ B$ v! I+ I! L! L\" B+ v\" v!" = .ok (.int 20) ∧
      expr.Evaluates (.ok (.value (.int 11))) ∧ ¬ expr.Evaluates (.ok (.value (.int 20))) := by
  let tree : ParseTree :=
    .node .binary (.ofLiteral "B$" 0)
      [.node .lambda (.ofLiteral "L!" 1)
        [.node .binary (.ofLiteral "B$" 2)
          [.node .binary (.ofLiteral "B$" 3)
              [.node .variable (.ofLiteral "v!" 4) [], .node .integer (.ofLiteral "I\"" 5) []],
            .node .binary (.ofLiteral "B$" 6)
              [.node .binary (.ofLiteral "B$" 7)
                  [.node .variable (.ofLiteral "v!" 8) [], .node .integer (.ofLiteral "I+" 9) []],
                .node .integer (.ofLiteral "I!" 10) []]]],
        .node .lambda (.ofLiteral "L!" 11)
          [.node .lambda (.ofLiteral "L\"" 12)
            [.node .binary (.ofLiteral "B+" 13)
              [.node .variable (.ofLiteral "v\"" 14) [], .node .variable (.ofLiteral "v!" 15) []]]]]
  let plus : Expr := .lam (-2) (.lam (-3) (.binary (.strict .add) (.var (-3)) (.var (-2))))
  let expr : Expr :=
    .app
      (.lam (-1)
        (.app (.app (.var (-1)) (.lit (.int 1)))
          (.app (.app (.var (-1)) (.lit (.int 10))) (.lit (.int 0)))))
      plus
  have parsed :
      ParseTree.ofText "B$ L! B$ B$ v! I\" B$ B$ v! I+ I! L! L\" B+ v\" v!" = .ok tree := by
    cbv
  have closed : tree.Closed := ParseTree.closed_of_closedUnder (by cbv)
  have read : Expr.ofText "B$ L! B$ B$ v! I\" B$ B$ v! I+ I! L! L\" B+ v\" v!" = .ok expr := by cbv
  have evaluated :
      evaluateText {} "B$ L! B$ B$ v! I\" B$ B$ v! I+ I! L! L\" B+ v\" v!" = .ok (.int 20) := by
    decide +kernel
  have hplus : ∀ n, (Expr.app plus (.lit (.int n))).Evaluates
      (.ok (.function (-3) (.binary (.strict .add) (.var (-3)) (.lit (.int n))))) :=
    fun n => .apply (.lam _ _) (.lam _ _)
  have hinner : (Expr.app (.app plus (.lit (.int 10))) (.lit (.int 0))).Evaluates
      (.ok (.value (.int 10))) :=
    .apply (hplus 10) (.strict (.lit (.int 0)) (.lit (.int 10)))
  have hexpr : expr.Evaluates (.ok (.value (.int 11))) :=
    .apply (.lam _ _) (.apply (hplus 1) (.strict hinner (.lit (.int 1))))
  exact ⟨tree, expr, parsed, closed, read, evaluated, hexpr,
    fun h => absurd (h.unique hexpr) (by decide)⟩

/-- As long as the machine overwrites no argument, the values of a closed text and its errors are
those of evaluation by name, except for errors about the limits. -/
theorem evaluate_agrees_of_nothingOverwritten {text : Text} {tree : ParseTree} {expr : Expr}
    (parsed : ParseTree.ofText text = .ok tree) (closed : tree.Closed)
    (read : Expr.ofText text = .ok expr) (limits : Limits) :
    (∀ value m, (expr.evaluate limits).run {} = .ok value m → m.NothingOverwritten →
      expr.Evaluates (.ok (.value value))) ∧
    (∀ error m, (expr.evaluate limits).run {} = .error error m → m.NothingOverwritten →
      error.isNonTermination = false → expr.Evaluates (.error error)) := by
  obtain ⟨log, h, hlog⟩ := (follows_runLoop limits .value expr).run_of_fresh
  have hstands : Stands ∅ expr expr := .of_closed (closed_of_ofText parsed closed read)
  constructor
  · intro value m hrun hnothing
    rw [show (runLoop limits .value expr).run {} = .ok value m from hrun] at h hlog
    have harmless : ∀ binding ∈ log, ¬ binding.Clobbers := fun binding hbinding hclobbers =>
      hlog.1 hnothing binding hbinding hclobbers.overwrites
    exact (h.simulated harmless hstands).evaluates_value
  · intro error m hrun hnothing hlimit
    rw [show (runLoop limits .value expr).run {} = .error error m from hrun] at h hlog
    have harmless : ∀ binding ∈ log, ¬ binding.Clobbers := fun binding hbinding hclobbers =>
      hlog.1 hnothing binding hbinding hclobbers.overwrites
    exact (h.simulated harmless hstands).evaluates_error hlimit

/-- Two functions; the argument of the outer one is computed in the body of the inner one. -/
theorem evaluate_agrees_two_functions :
    ∃ tree expr m, ParseTree.ofText "B$ B$ L! L\" B+ v! v\" B* I$ I# I%" = .ok tree ∧ tree.Closed ∧
      Expr.ofText "B$ B$ L! L\" B+ v! v\" B* I$ I# I%" = .ok expr ∧
      (expr.evaluate {}).run {} = .ok (.int 10) m ∧ m.NothingOverwritten ∧
      expr.Evaluates (.ok (.value (.int 10))) := by
  let tree : ParseTree :=
    .node .binary (.ofLiteral "B$" 0)
      [.node .binary (.ofLiteral "B$" 1)
        [.node .lambda (.ofLiteral "L!" 2)
          [.node .lambda (.ofLiteral "L\"" 3)
            [.node .binary (.ofLiteral "B+" 4)
              [.node .variable (.ofLiteral "v!" 5) [], .node .variable (.ofLiteral "v\"" 6) []]]],
          .node .binary (.ofLiteral "B*" 7)
            [.node .integer (.ofLiteral "I$" 8) [], .node .integer (.ofLiteral "I#" 9) []]],
        .node .integer (.ofLiteral "I%" 10) []]
  let expr : Expr :=
    .app
      (.app (.lam (-1) (.lam (-2) (.binary (.strict .add) (.var (-1)) (.var (-2)))))
        (.binary (.strict .mul) (.lit (.int 3)) (.lit (.int 2))))
      (.lit (.int 4))
  have parsed : ParseTree.ofText "B$ B$ L! L\" B+ v! v\" B* I$ I# I%" = .ok tree := by cbv
  have closed : tree.Closed := ParseTree.closed_of_closedUnder (by cbv)
  have read : Expr.ofText "B$ B$ L! L\" B+ v! v\" B* I$ I# I%" = .ok expr := by cbv
  have outcome : EvalM.outcome .lit ((expr.evaluate {}).run {}) = .ok (.lit (.int 10)) := by
    decide +kernel
  have counts : (after ((expr.evaluate {}).run {})).bindings.size =
      (after ((expr.evaluate {}).run {})).betas := by
    decide +kernel
  have agrees := (evaluate_agrees_of_nothingOverwritten parsed closed read {}).1
  cases hrun : (expr.evaluate {}).run {} with
  | error error m =>
    rw [hrun] at outcome
    cases outcome
  | ok value m =>
    rw [hrun] at outcome counts
    cases outcome
    exact ⟨tree, expr, m, parsed, closed, read, hrun, counts, agrees _ m hrun counts⟩

end Lambda94
