import Lambda94.Proofs.Invariant
import Lambda94.Proofs.JsonRoundTrip
import Lambda94.Proofs.Magnitude
import Lambda94.Proofs.Objections

/-!
# Integers in range

No type keeps the integers of a program in the range of 64 bits.  They stay there because whatever
makes an integer wraps it: the two readers (`Expr.literalsFit_of_ofText` and
`Expr.literalsFit_of_ofJsonText`) and the operators (`UnaryOp.fits_of_eval` and
`StrictOp.fits_of_eval`).  An error reports no integer that its operator was not given
(`EvalError.Blames.reports`), so those in errors are in range too.

That literals fit is thus an invariant of the machine: `integers_fit`.
-/

namespace Lambda94

open EvalM

theorem Value.fits_ofInt (n : Int) : (ofInt n).Fits := by
  have lower := wrap_lower n
  have upper := wrap_upper n
  show -2 ^ 63 ≤ wrap n ∧ wrap n < 2 ^ 63
  omega

/-! ### Programs that were read -/

theorem Expr.literalsFit_of_ofText {text : Text} {program : Expr}
    (read : Expr.ofText text = .ok program) : program.LiteralsFit := by
  obtain ⟨named, hnamed, rfl⟩ := Expr.ofText_eq_ok_iff.1 read
  obtain ⟨tree, -, renamed, -⟩ := Program.renamed_of_ofText hnamed
  refine Expr.each_of_at? fun path node hat => ?_
  have hshape := renamed.shape path
  rw [hat] at hshape
  cases htree : tree.at? path with
  | none =>
    rw [htree] at hshape
    cases hshape
  | some node' =>
    rw [htree] at hshape
    cases hshape with
    | some head =>
      cases head with
      | integer numeral => exact Wire.decodeInteger_bounds numeral
      | _ => trivial

theorem Json.DenotesValue.fits {json : Json} {value : Value} (h : json.DenotesValue value) :
    value.Fits := by
  cases h with
  | string | boolean => trivial
  | integer kind payload tagged => exact Value.fits_ofInt _

theorem Json.Denotes.literalsFit {json : Json} {expr : Expr} (h : json.Denotes expr) :
    expr.LiteralsFit := by
  induction h with
  | lit kind atValue denotes => exact denotes.fits
  | unary kind code atOperand denotes ih => exact ih
  | binary kind code atLeft atRight denotes denotes' ih ih' => exact ⟨ih, ih'⟩
  | cond kind atCondition atThen atElse denotes denotes' denotes'' ih ih' ih'' =>
    exact ⟨ih, ih', ih''⟩
  | lam kind atBinder atBody tagged denotes ih => exact ⟨trivial, ih⟩
  | var kind atId tagged => trivial

theorem Expr.literalsFit_of_ofJsonText {text : Text} {program : Expr}
    (read : Expr.ofJsonText text = .ok program) : program.LiteralsFit := by
  obtain ⟨json, -, -, denotes⟩ := Expr.ofJsonText_eq_ok_iff.1 read
  exact denotes.literalsFit

/-! ### Results of operators -/

/-- What is made of an operand fits if it fits whatever the operand is. -/
theorem Value.fits_of_bind {α : Type} {x : Except EvalError α} {f : α → Except EvalError Value}
    {result : Value} (h : x >>= f = .ok result) (fits : ∀ a, f a = .ok result → result.Fits) :
    result.Fits := by
  obtain ⟨a, -, hresult⟩ := bind_eq_ok_iff.1 h
  exact fits a hresult

theorem UnaryOp.fits_of_eval {op : UnaryOp} {value result : Value}
    (h : op.eval value = .ok result) : result.Fits := by
  cases op with
  | negate =>
    refine Value.fits_of_bind h ?_
    rintro n ⟨⟩
    exact Value.fits_ofInt _
  | logicalNot =>
    refine Value.fits_of_bind h ?_
    rintro b ⟨⟩
    trivial
  | stringToInt =>
    refine Value.fits_of_bind h fun s hs => ?_
    unfold Value.ofSpelling at hs
    split at hs <;> cases hs
    exact Value.fits_ofInt _
  | intToString =>
    refine Value.fits_of_bind h ?_
    rintro n ⟨⟩
    unfold Value.spell
    split <;> trivial

theorem StrictOp.fits_of_eval {op : StrictOp} {a b result : Value}
    (h : op.eval a b = .ok result) : result.Fits := by
  cases op with
  | add | sub | mul | div | mod =>
    refine Value.fits_of_bind h ?_
    rintro operands ⟨⟩
    exact Value.fits_ofInt _
  | less | greater | or | and | take | drop =>
    refine Value.fits_of_bind h ?_
    rintro operands ⟨⟩
    trivial
  | equal =>
    have hequal : (if a.kind = b.kind then _ else _) = Except.ok result := h
    split at hequal <;> cases hequal
    trivial
  | concat =>
    refine Value.fits_of_bind h fun s hs => Value.fits_of_bind hs ?_
    rintro s' ⟨⟩
    trivial

/-! ### Values in errors -/

/-- The value that an error reports, if it reports one, has the property. -/
def EvalError.Reports (P : Value → Prop) (error : EvalError) : Prop :=
  ∀ value, error.context.value = some value → P value

namespace EvalError

variable {P : Value → Prop} {error : EvalError}

theorem Reports.of_some {value : Value} (h : P value) (shown : error.context.value = some value) :
    error.Reports P := by
  intro value' hvalue'
  exact Option.some.inj (shown.symm.trans hvalue') ▸ h

theorem reports_of_isNonTermination (limited : error.isNonTermination = true) :
    error.Reports P := by
  cases error with
  | outOfSteps | tooDeep | stackExhausted => exact fun _ => nofun
  | _ => cases limited

/-- What an operator blames is what its error reports. -/
theorem Blames.reports (h : error.Blames P) : error.Reports P := by
  cases h with
  | typeMismatch _ _ operand | divisionByZero _ operand | countOutOfRange _ _ operand =>
    exact .of_some operand rfl
  | codec => exact fun _ => nofun

end EvalError

/-! ### Runs -/

/-- The integers of an expression are in range, wherever it is. -/
abbrev InRange : Store → Expr → Prop := fun _ expr => expr.LiteralsFit

theorem invariant_inRange : Invariant InRange where
  unary_iff := Iff.rfl
  binary_iff := Iff.rfl
  of_cond h := h
  unaryValue applied _ := UnaryOp.fits_of_eval applied
  strictValue applied _ _ := StrictOp.fits_of_eval applied
  kept _ h := h
  body h _ := h.2

/-- A run that fails reports a value in range, if it reports one. -/
theorem Run.reports_fits {pending : List Expr} {task : Task} {store store' : Store}
    {log : List Binding} {outcome : Except EvalError Expr}
    (h : Run pending task store log outcome store') (arguments : store.Keeps InRange)
    (hexpr : task.expr.LiteralsFit) : FailsOnly (EvalError.Reports Value.Fits) outcome := by
  have hI := invariant_inRange
  -- Only errors are left to look at: what a part of the run has returned is in range already.
  induction h with
  | lit | lam | var | apply | applyVar | cond | reach => exact .ok _
  | varError => exact .error fun _ => nofun
  | unaryValue op value =>
    exact ((op.blames_eval (P := Value.Fits) hexpr).mono fun _ => EvalError.Blames.reports).map _
  | unary op _ _ ih => exact (ih arguments hexpr).map _
  | strict op first second =>
    have hfirst := first.upheld hI arguments hexpr.1
    have hsecond := second.upheld hI hfirst.arguments hexpr.2
    have heval := op.blames_eval (P := Value.Fits) hfirst.outcome hsecond.outcome
    exact (heval.mono fun _ => EvalError.Blames.reports).map _
  | strictLeft op _ ih | applyError _ ih | condError _ ih => exact ih arguments hexpr.1
  | strictRight op first _ _ ih' =>
    exact ih' (first.upheld hI arguments hexpr.1).arguments hexpr.2
  | applyValue head => exact .error (.of_some (head.upheld hI arguments hexpr.1).outcome rfl)
  | condOther first _ => exact .error (.of_some (first.upheld hI arguments hexpr.1).outcome rfl)
  | limit target expr limited => exact .error (EvalError.reports_of_isNonTermination limited)
  | stepError _ ih => exact ih arguments hexpr
  | next step _ _ _ ih' =>
    have hstep := step.upheld hI arguments hexpr
    exact ih' hstep.arguments hstep.outcome

/-! ### Main result -/

/-- While a machine that holds expressions is idle, and during the next call: every integer that
occurs anywhere is in range. -/
structure IntegersFit (limits : Limits) (m : Machine) (held : List Expr) : Prop where
  arguments : Store.Keeps InRange m.bindings
  returned : ∀ expr ∈ held, expr.LiteralsFit
  /-- Whatever the machine comes to begin, with all that waits for it. -/
  begins : ∀ expr ∈ held, ∀ (move : Move) (job : Job),
    Job.ComesTo ⟨[], move.task expr, m.bindings⟩ job → job.Upheld InRange
  /-- However that ends. -/
  ends : ∀ expr ∈ held, ∀ (move : Move) (job : Job),
    Job.ComesTo ⟨[], move.task expr, m.bindings⟩ job → ∀ log outcome store,
      Run job.pending job.task job.store log outcome store →
        Upheld InRange job.store store outcome ∧
        FailsOnly (EvalError.Reports Value.Fits) outcome
  /-- However the call ends. -/
  calls : ∀ expr ∈ held, ∀ move : Move,
    Upheld InRange m.bindings (after ((move.run limits expr).run m)).bindings
      (outcome id ((move.run limits expr).run m)) ∧
    FailsOnly (EvalError.Reports Value.Fits) (outcome id ((move.run limits expr).run m))

/-- However a fresh machine is driven from a program that was read, from its text or from the JSON
form, by calls on what earlier calls have returned, some of which may fail: all integers are in the
range of 64 bits, in what is in progress and what waits, in the arguments, in what is returned and
in the values that errors report. -/
theorem integers_fit {program : Expr}
    (read : (∃ text, Expr.ofText text = .ok program) ∨ ∃ text, Expr.ofJsonText text = .ok program)
    {limits : Limits} {m : Machine} {held : List Expr} (driven : Driven limits program m held) :
    IntegersFit limits m held := by
  have hI := invariant_inRange
  have hprogram : program.LiteralsFit := by
    rcases read with ⟨text, read⟩ | ⟨text, read⟩
    · exact Expr.literalsFit_of_ofText read
    · exact Expr.literalsFit_of_ofJsonText read
  obtain ⟨arguments, hheld⟩ := driven.upheld hI hprogram
  have hbegins : ∀ expr ∈ held, ∀ (move : Move) (job : Job),
      Job.ComesTo ⟨[], move.task expr, m.bindings⟩ job → job.Upheld InRange :=
    fun expr mem move job comes =>
      Job.upheld_of_comesTo hI comes (Job.upheld_of_call arguments (hheld expr mem) move)
  have hends : ∀ expr ∈ held, ∀ (move : Move) (job : Job),
      Job.ComesTo ⟨[], move.task expr, m.bindings⟩ job → ∀ log outcome store,
        Run job.pending job.task job.store log outcome store →
          Upheld InRange job.store store outcome ∧
          FailsOnly (EvalError.Reports Value.Fits) outcome := by
    intro expr mem move job comes log outcome store run
    have hjob := hbegins expr mem move job comes
    exact ⟨run.upheld hI hjob.arguments hjob.expr, run.reports_fits hjob.arguments hjob.expr⟩
  refine ⟨arguments, hheld, hbegins, hends, fun expr mem move => ?_⟩
  obtain ⟨log, run, -⟩ := move.follows_run limits expr [] m
  exact hends expr mem move _ .refl log _ _ run

/-- A function applied to a product that overflows, which is an operand of the wrong kind; and an
integer in the JSON form that is out of range by one. -/
theorem integers_fit_beyond_the_range :
    ∃ text : Text, ∃ program m held, ∃ text' : Text, ∃ program',
      text = "B$ L! U! v! B* I1**0#VEx9D I#" ∧ Expr.ofText text = .ok program ∧
      Driven {} program m held ∧
      m.bindings[(-1 : Int)]? =
        some (.binary (.strict .mul) (.lit (.int 0x7FFFFFFFFFFFFFFF)) (.lit (.int 2))) ∧
      outcome id ((Move.evaluate.run {} program).run {}) =
        .error (.typeMismatch (.unary .logicalNot) .boolean (.int (-2))) ∧
      IntegersFit {} m held ∧
      text' = "\x7b\"kind\":\"literal\",\"value\":\x7b\"kind\":\"integer\"," ++
        "\"value\":\x7b\"__bigint__\":\"9223372036854775808\"\x7d\x7d\x7d" ∧
      Expr.ofJsonText text' = .ok program' ∧ program' = .lit (.int (-0x8000000000000000)) ∧
      IntegersFit {} {} [program'] := by
  let text : Text := "B$ L! U! v! B* I1**0#VEx9D I#"
  let arg : Expr := .binary (.strict .mul) (.lit (.int 0x7FFFFFFFFFFFFFFF)) (.lit (.int 2))
  let program : Expr := .app (.lam (-1) (.unary .logicalNot (.var (-1)))) arg
  let text' : Text := "\x7b\"kind\":\"literal\",\"value\":\x7b\"kind\":\"integer\"," ++
    "\"value\":\x7b\"__bigint__\":\"9223372036854775808\"\x7d\x7d\x7d"
  let program' : Expr := .lit (.int (-0x8000000000000000))
  let evaluated := (Move.evaluate.run {} program).run {}
  have read : Expr.ofText text = .ok program := by decide +kernel
  have read' : Expr.ofJsonText text' = .ok program' := by decide +kernel
  have driven : Driven {} program (after evaluated) (returned evaluated ++ [program]) :=
    .call .fresh .evaluate (List.mem_singleton_self program)
  have bound : (after evaluated).bindings[(-1 : Int)]? = some arg := by decide +kernel
  have fails : outcome id evaluated =
      .error (.typeMismatch (.unary .logicalNot) .boolean (.int (-2))) := by
    decide +kernel
  exact ⟨text, program, _, _, text', program', rfl, read, driven, bound, fails,
    integers_fit (.inl ⟨text, read⟩) driven, rfl, read', rfl,
    integers_fit (.inr ⟨text', read'⟩) .fresh⟩

end Lambda94
