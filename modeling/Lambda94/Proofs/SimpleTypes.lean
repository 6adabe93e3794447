import Lambda94.Proofs.BoundVariables
import Lambda94.Proofs.IntegerBody

/-!
# Simple types

A program is simply typed if one assignment of types to binders gives a type to every part of it
(`Expr.HasType`).  The assignment is for the whole program, not for a scope, and so are the places
of the store: an argument that overwrites another one has the type of the place, whatever still
refers to it.  So runs keep types (`Run.typed`), and from one call to the next all that was returned
has the type of the program (`Driven.typed`).

A closed program that is simply typed never applies a value, never meets an operand or a condition
of a wrong kind and never meets an unbound variable; what can still go wrong is listed by
`EvalError.BeyondTypes`: `call_of_hasType`.
-/

namespace Lambda94

open EvalM

/-! ### Types -/

/-- The type of an expression: a kind of values, or the functions from one type to another. -/
inductive SimpleType
  | base (kind : Kind)
  | arrow (arg result : SimpleType)
deriving DecidableEq, Repr

namespace UnaryOp

/-- The kind of the operand of a unary operator. -/
def operandKind : UnaryOp → Kind
  | .negate | .intToString => .integer
  | .logicalNot => .boolean
  | .stringToInt => .string

/-- The kind of the result of a unary operator. -/
def resultKind : UnaryOp → Kind
  | .negate | .stringToInt => .integer
  | .logicalNot => .boolean
  | .intToString => .string

end UnaryOp

namespace StrictOp

/-- The strict operator is for operands of these kinds; any two values of one kind can be compared
for equality. -/
def Takes (op : StrictOp) (left right : Kind) : Prop :=
  match op with
  | .add | .sub | .mul | .div | .mod | .less | .greater => left = .integer ∧ right = .integer
  | .equal => left = right
  | .or | .and => left = .boolean ∧ right = .boolean
  | .concat => left = .string ∧ right = .string
  | .take | .drop => left = .integer ∧ right = .string

/-- The kind of the result of a strict operator. -/
def resultKind : StrictOp → Kind
  | .add | .sub | .mul | .div | .mod => .integer
  | .less | .greater | .equal | .or | .and => .boolean
  | .concat | .take | .drop => .string

end StrictOp

/-- The expression has a type, if `Γ` gives each variable and each binder its type. -/
inductive Expr.HasType (Γ : Int → SimpleType) : Expr → SimpleType → Prop
  | lit (value : Value) : HasType Γ (.lit value) (.base value.kind)
  | unary {op : UnaryOp} {operand : Expr} (hoperand : HasType Γ operand (.base op.operandKind)) :
    HasType Γ (.unary op operand) (.base op.resultKind)
  | strict {op : StrictOp} {left right : Expr} {a b : Kind} (takes : op.Takes a b)
    (hleft : HasType Γ left (.base a)) (hright : HasType Γ right (.base b)) :
    HasType Γ (.binary (.strict op) left right) (.base op.resultKind)
  | apply {fn arg : Expr} {σ τ : SimpleType} (hfn : HasType Γ fn (.arrow σ τ))
    (harg : HasType Γ arg σ) : HasType Γ (.app fn arg) τ
  | cond {condition thenBranch elseBranch : Expr} {τ : SimpleType}
    (hcondition : HasType Γ condition (.base .boolean)) (hthen : HasType Γ thenBranch τ)
    (helse : HasType Γ elseBranch τ) : HasType Γ (.cond condition thenBranch elseBranch) τ
  | lam (binder : Int) {body : Expr} {τ : SimpleType} (hbody : HasType Γ body τ) :
    HasType Γ (.lam binder body) (.arrow (Γ binder) τ)
  | var (id : Int) : HasType Γ (.var id) (Γ id)

/-! ### Operators -/

/-- The errors that no type rules out: about the operands of an operator, though they have the
right kinds, and about the limits. -/
inductive EvalError.BeyondTypes : EvalError → Prop
  | divisionByZero (op : StrictOp) : BeyondTypes (.divisionByZero op)
  | countOutOfRange (op : StrictOp) (count : Int) (length : Nat) :
    BeyondTypes (.countOutOfRange op count length)
  | invalidDigit (digit body : Text) : BeyondTypes (.codec (.invalidDigit digit body))
  | limit {error : EvalError} (limited : error.isNonTermination = true) : BeyondTypes error

/-- The computation ends with a value of the kind, or with an error that no type rules out. -/
def Gives (kind : Kind) : Except EvalError Value → Prop
  | .ok value => value.kind = kind
  | .error error => error.BeyondTypes

namespace Value

theorem exists_str {value : Value} (h : value.kind = .string) : ∃ s, value = .str s := by
  cases value with
  | str s => exact ⟨s, rfl⟩
  | bool | int => cases h

theorem exists_bool {value : Value} (h : value.kind = .boolean) : ∃ b, value = .bool b := by
  cases value with
  | bool b => exact ⟨b, rfl⟩
  | str | int => cases h

theorem exists_int {value : Value} (h : value.kind = .integer) : ∃ n, value = .int n := by
  cases value with
  | int n => exact ⟨n, rfl⟩
  | str | bool => cases h

end Value

theorem Value.gives_ofSpelling (s : Text) : Gives .integer (ofSpelling s) := by
  rw [ofSpelling]
  cases hdecoded : Wire.decodeInteger (Wire.encodeString s) with
  | ok n => exact rfl
  | error error =>
    obtain ⟨digit, -, rfl⟩ := Wire.decodeInteger_eq_error_iff.1 hdecoded
    exact .invalidDigit digit _

theorem Value.kind_spell (n : Int) : (spell n).kind = .string := by
  rw [spell]
  split_ifs <;> rfl

/-- A unary operator on an operand of its kind. -/
theorem UnaryOp.gives_eval {op : UnaryOp} {value : Value} (h : value.kind = op.operandKind) :
    Gives op.resultKind (op.eval value) := by
  cases op with
  | negate =>
    obtain ⟨n, rfl⟩ := Value.exists_int h
    exact rfl
  | logicalNot =>
    obtain ⟨b, rfl⟩ := Value.exists_bool h
    exact rfl
  | stringToInt =>
    obtain ⟨s, rfl⟩ := Value.exists_str h
    exact Value.gives_ofSpelling s
  | intToString =>
    obtain ⟨n, rfl⟩ := Value.exists_int h
    exact Value.kind_spell n

namespace StrictOp

theorem cutOperands_int_str (op : StrictOp) (count : Int) (s : Text) :
    op.cutOperands (.int count) (.str s) =
      if count < 0 ∨ ((Text.characters s).length : Int) < count then
        .error (.countOutOfRange op count (Text.characters s).length)
      else .ok (count.toNat, Text.characters s) := rfl

/-- A strict operator on operands of its kinds. -/
theorem gives_eval {op : StrictOp} {a b : Value} (takes : op.Takes a.kind b.kind) :
    Gives op.resultKind (op.eval a b) := by
  cases op with
  | add | sub | mul | less | greater =>
    obtain ⟨x, rfl⟩ := Value.exists_int takes.1
    obtain ⟨y, rfl⟩ := Value.exists_int takes.2
    exact rfl
  | div | mod =>
    obtain ⟨x, rfl⟩ := Value.exists_int takes.1
    obtain ⟨y, rfl⟩ := Value.exists_int takes.2
    rw [eval, divisionOperands_int]
    split_ifs
    · exact .divisionByZero _
    · exact rfl
  | equal =>
    have same : a.kind = b.kind := takes
    rw [eval, if_pos same]
    exact rfl
  | or | and =>
    obtain ⟨x, rfl⟩ := Value.exists_bool takes.1
    obtain ⟨y, rfl⟩ := Value.exists_bool takes.2
    exact rfl
  | concat =>
    obtain ⟨x, rfl⟩ := Value.exists_str takes.1
    obtain ⟨y, rfl⟩ := Value.exists_str takes.2
    exact rfl
  | take | drop =>
    obtain ⟨count, rfl⟩ := Value.exists_int takes.1
    obtain ⟨s, rfl⟩ := Value.exists_str takes.2
    rw [eval, cutOperands_int_str]
    split_ifs
    · exact .countOutOfRange _ _ _
    · exact rfl

end StrictOp

/-! ### Runs -/

variable {Γ : Int → SimpleType}

/-- Every argument has the type of its place. -/
def Store.Typed (Γ : Int → SimpleType) (store : Store) : Prop :=
  ∀ (id : Int) (arg : Expr), store[id]? = some arg → arg.HasType Γ (Γ id)

theorem Store.Typed.insert {store : Store} (h : store.Typed Γ) {binder : Int} {arg : Expr}
    (harg : arg.HasType Γ (Γ binder)) : Store.Typed Γ (store.insert binder arg) := by
  intro id arg' bound
  by_cases hid : id = binder
  · subst hid
    rw [Store.getElem?_insert_self] at bound
    exact Option.some.inj bound ▸ harg
  · rw [Store.getElem?_insert_of_ne _ _ hid] at bound
    exact h id arg' bound

/-- A run to an expression of the type, or to an error that typing by itself does not rule out. -/
def EndsIn (Γ : Int → SimpleType) (τ : SimpleType) : Except EvalError Expr → Prop
  | .ok next => next.HasType Γ τ
  | .error error => error.BeyondTypes ∨ ∃ id, error = .unboundVariable id

theorem Gives.endsIn {kind : Kind} {x : Except EvalError Value} (h : Gives kind x) :
    EndsIn Γ (.base kind) (x.map .lit) := by
  cases x with
  | ok value => exact (show value.kind = kind from h) ▸ .lit value
  | error error => exact .inl h

theorem Expr.HasType.kind_eq {value : Value} {kind : Kind}
    (h : (Expr.lit value).HasType Γ (.base kind)) : value.kind = kind := by
  cases h
  rfl

/-- A run keeps the types of arguments and of the expression in progress, whatever waits for it. -/
theorem Run.typed {pending : List Expr} {task : Task} {store store' : Store} {log : List Binding}
    {outcome : Except EvalError Expr} (h : Run pending task store log outcome store')
    (arguments : store.Typed Γ) {τ : SimpleType} (hexpr : task.expr.HasType Γ τ) :
    store'.Typed Γ ∧ EndsIn Γ τ outcome := by
  induction h generalizing τ with
  | lit | lam => exact ⟨arguments, hexpr⟩
  | var bound =>
    cases hexpr
    exact ⟨arguments, arguments _ _ bound⟩
  | varError unbound => exact ⟨arguments, .inr ⟨_, rfl⟩⟩
  | unaryValue op value =>
    cases hexpr with
    | unary hoperand => exact ⟨arguments, (UnaryOp.gives_eval hoperand.kind_eq).endsIn⟩
  | @unary _ _ _ outcome _ op _ _ _ ih =>
    cases hexpr with
    | unary hoperand =>
      obtain ⟨arguments', hinner⟩ := ih arguments hoperand
      refine ⟨arguments', ?_⟩
      cases outcome with
      | ok next => exact .unary hinner
      | error error => exact hinner
  | strict op _ _ ih ih' =>
    cases hexpr with
    | strict takes hleft hright =>
      obtain ⟨arguments₁, hfirst⟩ := ih arguments hleft
      obtain ⟨arguments₂, hsecond⟩ := ih' arguments₁ hright
      obtain rfl := Expr.HasType.kind_eq hfirst
      obtain rfl := Expr.HasType.kind_eq hsecond
      exact ⟨arguments₂, (StrictOp.gives_eval takes).endsIn⟩
  | strictLeft op _ ih =>
    cases hexpr with
    | strict takes hleft hright =>
      have hfirst := ih arguments hleft
      exact hfirst
  | strictRight op _ _ ih ih' =>
    cases hexpr with
    | strict takes hleft hright =>
      have hsecond := ih' (ih arguments hleft).1 hright
      exact hsecond
  | apply _ ih =>
    cases hexpr with
    | apply hfn harg =>
      obtain ⟨arguments', hhead⟩ := ih arguments hfn
      cases (show Expr.HasType Γ _ _ from hhead) with
      | lam binder hbody => exact ⟨arguments'.insert harg, hbody⟩
  | applyVar _ ih =>
    cases hexpr with
    | apply hfn harg =>
      obtain ⟨arguments', hhead⟩ := ih arguments hfn
      exact ⟨arguments', .apply hhead harg⟩
  | applyValue _ ih =>
    cases hexpr with
    | apply hfn harg =>
      -- No value has the type of a function.
      cases (show Expr.HasType Γ _ _ from (ih arguments hfn).2)
  | applyError _ ih =>
    cases hexpr with
    | apply hfn harg =>
      have hhead := ih arguments hfn
      exact hhead
  | @cond _ _ _ _ b _ _ _ _ ih =>
    cases hexpr with
    | cond hcondition hthen helse =>
      refine ⟨(ih arguments hcondition).1, ?_⟩
      cases b with
      | true => exact hthen
      | false => exact helse
  | condOther _ other ih =>
    cases hexpr with
    | cond hcondition hthen helse =>
      exact absurd (Expr.HasType.kind_eq (ih arguments hcondition).2) other
  | condError _ ih =>
    cases hexpr with
    | cond hcondition hthen helse =>
      have hfirst := ih arguments hcondition
      exact hfirst
  | limit target expr limited => exact ⟨arguments, .inl (.limit limited)⟩
  | stepError _ ih | reach _ _ ih => exact ih arguments hexpr
  | next _ _ _ ih ih' =>
    obtain ⟨arguments₁, hnext⟩ := ih arguments hexpr
    exact ih' arguments₁ hnext

/-! ### From call to call -/

/-- A call keeps types. -/
theorem Move.typed {m : Machine} {expr : Expr} {τ : SimpleType}
    (arguments : Store.Typed Γ m.bindings) (hexpr : expr.HasType Γ τ) (limits : Limits)
    (move : Move) :
    Store.Typed Γ (after ((move.run limits expr).run m)).bindings ∧
      EndsIn Γ τ (outcome id ((move.run limits expr).run m)) := by
  obtain ⟨log, hrun, -⟩ := move.follows_run limits expr [] m
  exact hrun.typed arguments (by rwa [Move.expr_task])

theorem EndsIn.of_mem_returned {τ : SimpleType} {r : EStateM.Result EvalError Machine Expr}
    (h : EndsIn Γ τ (outcome id r)) {expr : Expr} (mem : expr ∈ returned r) :
    expr.HasType Γ τ := by
  cases r with
  | ok next m => exact List.mem_singleton.1 mem ▸ h
  | error error m => exact absurd mem List.not_mem_nil

/-- All that was returned has the type of the program, however the machine was driven. -/
theorem Driven.typed {limits : Limits} {program : Expr} {m : Machine} {held : List Expr}
    {τ : SimpleType} (driven : Driven limits program m held) (hprogram : program.HasType Γ τ) :
    Store.Typed Γ m.bindings ∧ ∀ expr ∈ held, expr.HasType Γ τ := by
  induction driven with
  | fresh =>
    refine ⟨fun id arg bound => ?_, fun expr mem => List.mem_singleton.1 mem ▸ hprogram⟩
    cases bound
  | call _ move mem ih =>
    obtain ⟨arguments, hheld⟩ := ih
    obtain ⟨arguments', hend⟩ := move.typed arguments (hheld _ mem) limits
    refine ⟨arguments', fun expr' mem' => ?_⟩
    rcases List.mem_append.1 mem' with mem' | mem'
    · exact hend.of_mem_returned mem'
    · exact hheld expr' mem'

/-! ### Main result -/

/-- A fresh machine is driven in any way, within any limits, from a closed program that some
assignment of types to binders gives a type, whatever is overwritten on the way.  A call that fails
does so because of a division by zero, a count out of range, a character that is no digit, or the
limits; and what an evaluation returns is a value of the kind that the type of the program
names. -/
theorem call_of_hasType {program : Expr} {τ : SimpleType} (typed : program.HasType Γ τ)
    (closed : program.Closed) {limits : Limits} {m : Machine} {held : List Expr}
    (driven : Driven limits program m held) {expr : Expr} (mem : expr ∈ held) :
    (∀ move error m', (Move.run limits move expr).run m = .error error m' → error.BeyondTypes) ∧
      ∀ value m', (expr.evaluate limits).run m = .ok value m' → τ = .base value.kind := by
  obtain ⟨arguments, hheld⟩ := driven.typed typed
  obtain ⟨bound, hcovers⟩ := driven.upheld invariant_covers (Store.covers_of_closed closed ∅)
  constructor
  · intro move error m' hcall
    obtain ⟨-, hend⟩ := move.typed arguments (hheld expr mem) limits
    have hupheld := move.upheld invariant_covers bound (hcovers expr mem) limits
    rw [hcall] at hend hupheld
    rcases hend with hbeyond | ⟨id, rfl⟩
    · exact hbeyond
    · exact absurd rfl (hupheld.ne_unboundVariable id)
  · intro value m' hvalue
    obtain ⟨-, hend⟩ := Move.evaluate.typed arguments (hheld expr mem) limits
    rw [Move.run, run_bind_of_ok hvalue] at hend
    cases (show Expr.HasType Γ (.lit value) τ from hend)
    rfl

/-- A function that is applied again inside the argument of its first application, which overwrites
its argument; and a division of what a string spells by zero, which has a type and fails. -/
theorem call_of_hasType_overwritten :
    ∃ (Γ : Int → SimpleType) (program quotient : Expr) (m m' : Machine),
      Expr.ofText "B$ L! B$ B$ v! I\" B$ B$ v! I+ I! L! L\" B+ v\" v!" = .ok program ∧
      Expr.ofText "B/ U# S! B$ L! v! I!" = .ok quotient ∧
      program.HasType Γ (.base .integer) ∧ program.Closed ∧
      quotient.HasType (fun _ => .base .integer) (.base .integer) ∧ quotient.Closed ∧
      (program.evaluate {}).run {} = .ok (.int 20) m ∧ m.bindings.size < m.betas ∧
      SimpleType.base .integer = .base (Value.int 20).kind ∧
      (quotient.evaluate {}).run {} = .error (.divisionByZero .div) m' ∧
      (EvalError.divisionByZero .div).BeyondTypes := by
  let plus : Expr := .lam (-2) (.lam (-3) (.binary (.strict .add) (.var (-3)) (.var (-2))))
  let program : Expr :=
    .app
      (.lam (-1)
        (.app (.app (.var (-1)) (.lit (.int 1)))
          (.app (.app (.var (-1)) (.lit (.int 10))) (.lit (.int 0)))))
      plus
  let quotient : Expr :=
    .binary (.strict .div) (.unary .stringToInt (.lit (.str "a")))
      (.app (.lam (-1) (.var (-1))) (.lit (.int 0)))
  let integer : SimpleType := .base .integer
  let Γ : Int → SimpleType :=
    fun id => if id = -1 then .arrow integer (.arrow integer integer) else integer
  have read₁ : Expr.ofText "B$ L! B$ B$ v! I\" B$ B$ v! I+ I! L! L\" B+ v\" v!" = .ok program := by
    cbv
  have read₂ : Expr.ofText "B/ U# S! B$ L! v! I!" = .ok quotient := by cbv
  have closed₁ : program.Closed := by decide
  have closed₂ : quotient.Closed := by decide
  have typed₁ : program.HasType Γ integer :=
    .apply
      (.lam (-1)
        (.apply (.apply (.var (-1)) (.lit _)) (.apply (.apply (.var (-1)) (.lit _)) (.lit _))))
      (.lam (-2) (.lam (-3) (.strict ⟨rfl, rfl⟩ (.var (-3)) (.var (-2)))))
  have typed₂ : quotient.HasType (fun _ => integer) integer :=
    .strict ⟨rfl, rfl⟩ (.unary (.lit _)) (.apply (.lam (-1) (.var (-1))) (.lit _))
  have value : outcome .lit ((program.evaluate {}).run {}) = .ok (.lit (.int 20)) := by
    decide +kernel
  have overwritten : (after ((program.evaluate {}).run {})).bindings.size <
      (after ((program.evaluate {}).run {})).betas := by
    decide +kernel
  have failure : outcome .lit ((quotient.evaluate {}).run {}) = .error (.divisionByZero .div) := by
    decide +kernel
  cases hrun₁ : (program.evaluate {}).run {} with
  | error error m =>
    rw [hrun₁] at value
    cases value
  | ok result m =>
    rw [hrun₁] at value overwritten
    cases value
    cases hrun₂ : (quotient.evaluate {}).run {} with
    | ok result' m' =>
      rw [hrun₂] at failure
      cases failure
    | error error m' =>
      rw [hrun₂] at failure
      cases failure
      have kind := (call_of_hasType typed₁ closed₁ .fresh (List.mem_singleton_self program)).2
        _ m hrun₁
      have beyond := (call_of_hasType typed₂ closed₂ .fresh (List.mem_singleton_self quotient)).1
        .evaluate _ m' (run_bind_of_error hrun₂)
      exact ⟨Γ, program, quotient, m, m', read₁, read₂, typed₁, closed₁, typed₂, closed₂, hrun₁,
        overwritten, kind, hrun₂, beyond⟩

end Lambda94
