import Lambda94.Expr.Wire
import Lambda94.Proofs.Renaming

/-!
# What variables refer to

A variable refers to the nearest function around it with the same id, or it is free:
`Expr.referent?`.  Two ways to change the ids of an expression are compared by what its variables
then refer to.  Giving every function a binder of its own changes nothing, provided that every
variable reads back: `referent?_canonical`.  Dropping the signs may turn a variable to another
function; if it turns none, every variable reads back: `readsBack_of_referent?_absolute`.
-/

namespace Lambda94

/-! ### Properties of literals, binders and variables -/

namespace Expr

/-- Every literal, every binder and every variable of an expression has its property. -/
def Each (lit : Value → Prop) (binder var : Int → Prop) : Expr → Prop
  | .lit value => lit value
  | .unary _ operand => operand.Each lit binder var
  | .binary _ left right => left.Each lit binder var ∧ right.Each lit binder var
  | .cond c t e => c.Each lit binder var ∧ t.Each lit binder var ∧ e.Each lit binder var
  | .lam id body => binder id ∧ body.Each lit binder var
  | .var id => var id

/-- The outermost node, if it is a literal, a function or a variable, has its property. -/
def Outermost (lit : Value → Prop) (binder var : Int → Prop) : Expr → Prop
  | .lit value => lit value
  | .lam id _ => binder id
  | .var id => var id
  | .unary .. | .binary .. | .cond .. => True

section

variable {lit : Value → Prop} {binder var : Int → Prop}

theorem forall_at?_child {P : Expr → Prop} {expr child : Expr} {i : Nat}
    (h : ∀ path node, expr.at? path = some node → P node) (hchild : expr.children[i]? = some child)
    (path : Path) (node : Expr) (hat : child.at? path = some node) : P node :=
  h (i :: path) node (by rw [at?_cons hchild, hat])

theorem each_of_at? {expr : Expr}
    (h : ∀ path node, expr.at? path = some node → node.Outermost lit binder var) :
    expr.Each lit binder var := by
  induction expr with
  | lit value => exact h [] _ rfl
  | unary op operand ih => exact ih (forall_at?_child (i := 0) h rfl)
  | binary op left right ihl ihr =>
    exact ⟨ihl (forall_at?_child (i := 0) h rfl), ihr (forall_at?_child (i := 1) h rfl)⟩
  | cond c t e ihc iht ihe =>
    exact ⟨ihc (forall_at?_child (i := 0) h rfl), iht (forall_at?_child (i := 1) h rfl),
      ihe (forall_at?_child (i := 2) h rfl)⟩
  | lam id body ih => exact ⟨h [] _ rfl, ih (forall_at?_child (i := 0) h rfl)⟩
  | var id => exact h [] _ rfl

end

end Expr

/-! ### Referents -/

/-- What a variable refers to. -/
inductive Referent
  /-- The function at a position. -/
  | function (path : Path)
  /-- Nothing in the expression. -/
  | free (id : Int)
deriving DecidableEq, Repr

/-- What `id` refers to inside functions of the given binders and positions, innermost first. -/
def Referent.of (functions : List (Int × Path)) (id : Int) : Referent :=
  match functions.lookup id with
  | some path => .function path
  | none => .free id

theorem Referent.of_cons_self (functions : List (Int × Path)) (id : Int) (path : Path) :
    Referent.of ((id, path) :: functions) id = .function path := by
  simp [Referent.of]

theorem Referent.of_cons_of_ne {id binder : Int} (h : id ≠ binder) (functions : List (Int × Path))
    (path : Path) : Referent.of ((binder, path) :: functions) id = Referent.of functions id := by
  simp [Referent.of, List.lookup_cons, beq_eq_false_iff_ne.2 h]

theorem Referent.mem_of_eq_function {functions : List (Int × Path)} {id : Int} {path : Path}
    (h : Referent.of functions id = .function path) : path ∈ functions.map Prod.snd := by
  unfold Referent.of at h
  split at h
  next path' hlookup =>
    obtain rfl := Referent.function.inj h
    obtain ⟨earlier, later, rfl, -⟩ := List.lookup_eq_some_iff.1 hlookup
    simp
  next => cases h

namespace Expr

/-- What the variable at a path refers to, in an expression at the position `here` inside the given
functions. -/
def referentWithin? (functions : List (Int × Path)) (here : Path) : Expr → Path → Option Referent
  | .var id, [] => some (.of functions id)
  | .lam binder body, 0 :: path =>
    body.referentWithin? ((binder, here) :: functions) (here ++ [0]) path
  | .unary _ operand, 0 :: path => operand.referentWithin? functions (here ++ [0]) path
  | .binary _ left _, 0 :: path => left.referentWithin? functions (here ++ [0]) path
  | .binary _ _ right, 1 :: path => right.referentWithin? functions (here ++ [1]) path
  | .cond c _ _, 0 :: path => c.referentWithin? functions (here ++ [0]) path
  | .cond _ t _, 1 :: path => t.referentWithin? functions (here ++ [1]) path
  | .cond _ _ e, 2 :: path => e.referentWithin? functions (here ++ [2]) path
  | _, _ => none

/-- What the variable at a path refers to: the position of the nearest function above it with the
same id, or, if there is none, the id itself. -/
def referent? (expr : Expr) (path : Path) : Option Referent := expr.referentWithin? [] [] path

/-- Every variable, written by its absolute value inside the given binders, is read back as
itself. -/
def ReadsBack (binders : List Int) : Expr → Prop
  | .lit _ => True
  | .unary _ operand => operand.ReadsBack binders
  | .binary _ left right => left.ReadsBack binders ∧ right.ReadsBack binders
  | .cond c t e => c.ReadsBack binders ∧ t.ReadsBack binders ∧ e.ReadsBack binders
  | .lam binder body => body.ReadsBack (binder :: binders)
  | .var id => readsBack binders id = true

end Expr

theorem readsBack_nil_iff {id : Int} : readsBack [] id = true ↔ 0 ≤ id := by
  simp [readsBack, resolve?]

/-- The innermost binder decides, if it has the numeral of the variable. -/
theorem readsBack_cons_iff {binder id : Int} {binders : List Int} :
    readsBack (binder :: binders) id = true ↔
      if binder.natAbs = id.natAbs then binder = id else readsBack binders id = true := by
  unfold readsBack resolve?
  split_ifs with h <;> simp [h]

/-! ### Renumbering -/

namespace Expr

/-- Gives the functions of an expression the binders `next`, `next - 1` and so on, in the order of
the text, and every variable what `rename` or the nearest function around it makes of its id. -/
def renumber (rename : Int → Int) (next : Int) : Expr → Expr
  | .lit value => .lit value
  | .unary op operand => .unary op (operand.renumber rename next)
  | .binary op left right =>
    .binary op (left.renumber rename next) (right.renumber rename (next - left.binders.length))
  | .cond c t e =>
    .cond (c.renumber rename next) (t.renumber rename (next - c.binders.length))
      (e.renumber rename (next - c.binders.length - t.binders.length))
  | .lam binder body => .lam next (body.renumber (Function.update rename binder next) (next - 1))
  | .var id => .var (rename id)

theorem binders_renumber (expr : Expr) (rename : Int → Int) (next : Int) :
    (expr.renumber rename next).binders = countdown next expr.binders.length := by
  induction expr generalizing rename next with
  | lit value => rfl
  | unary op operand ih => exact ih rename next
  | binary op left right ihl ihr =>
    rw [renumber, binders, binders, ihl, ihr, List.length_append, countdown_add]
  | cond c t e ihc iht ihe =>
    rw [renumber, binders, binders, ihc, iht, ihe, List.length_append, List.length_append,
      countdown_add, countdown_add, Nat.cast_add, Int.sub_sub]
  | lam binder body ih => rw [renumber, binders, binders, ih, List.length_cons, countdown_succ]
  | var id => rfl

/-- The binders of an expression that counts down already stay as they are. -/
theorem renumber_eq_self {expr : Expr} {next : Int}
    (h : expr.binders = countdown next expr.binders.length) : expr.renumber id next = expr := by
  induction expr generalizing next with
  | lit value => rfl
  | unary op operand ih => rw [renumber, ih h]
  | binary op left right ihl ihr =>
    rw [binders, List.length_append, countdown_add] at h
    obtain ⟨hleft, hright⟩ := List.append_inj h (by simp)
    rw [renumber, ihl hleft, ihr hright]
  | cond c t e ihc iht ihe =>
    rw [binders, List.length_append, countdown_add] at h
    obtain ⟨h, helse⟩ := List.append_inj h (by simp)
    rw [List.length_append, countdown_add] at h
    obtain ⟨hcond, hthen⟩ := List.append_inj h (by simp)
    rw [List.length_append, Nat.cast_add, ← Int.sub_sub] at helse
    rw [renumber, ihc hcond, iht hthen, ihe helse]
  | lam binder body ih =>
    rw [binders, List.length_cons, countdown_succ] at h
    obtain ⟨rfl, hbody⟩ := List.cons.inj h
    have hupdate : Function.update id binder binder = id := Function.update_eq_self binder id
    rw [renumber, hupdate, ih hbody]
  | var id => rfl

end Expr

/-! ### Spelling negative integers -/

/-- A negative integer has no numeral; it is written as a negation. -/
def Value.spelled : Value → Expr
  | .int n => if n < 0 then .unary .negate (.lit (.int (wrap (-n)))) else .lit (.int n)
  | value => .lit value

namespace Expr

/-- Writes the negative integers of an expression as negations. -/
def spellNegatives : Expr → Expr
  | .lit value => value.spelled
  | .unary op operand => .unary op operand.spellNegatives
  | .binary op left right => .binary op left.spellNegatives right.spellNegatives
  | .cond c t e => .cond c.spellNegatives t.spellNegatives e.spellNegatives
  | .lam binder body => .lam binder body.spellNegatives
  | .var id => .var id

/-- The expression with binders counting down from `-1` in the order of the text and with its
negative integers written as negations. -/
def canonical (expr : Expr) : Expr := (expr.renumber id (-1)).spellNegatives

/-- The expression without the signs of its binders and variables. -/
def absolute : Expr → Expr
  | .lit value => .lit value
  | .unary op operand => .unary op operand.absolute
  | .binary op left right => .binary op left.absolute right.absolute
  | .cond c t e => .cond c.absolute t.absolute e.absolute
  | .lam binder body => .lam binder.natAbs body.absolute
  | .var id => .var id.natAbs

/-- No literal is a negative integer. -/
def NoNegative : Expr → Prop :=
  Each (fun value => ∀ n, value = .int n → 0 ≤ n) (fun _ => True) fun _ => True

theorem spellNegatives_eq_self_iff {expr : Expr} :
    expr.spellNegatives = expr ↔ expr.NoNegative := by
  unfold NoNegative
  induction expr with
  | lit value =>
    rcases value with s | b | n
    · simp [spellNegatives, Value.spelled, Each]
    · simp [spellNegatives, Value.spelled, Each]
    · by_cases hn : n < 0 <;> simp [spellNegatives, Value.spelled, Each, hn]
      omega
  | unary op operand ih => simp [spellNegatives, Each, ih]
  | binary op left right ihl ihr => simp [spellNegatives, Each, ihl, ihr]
  | cond c t e ihc iht ihe => simp [spellNegatives, Each, ihc, iht, ihe]
  | lam binder body ih => simp [spellNegatives, Each, ih]
  | var id => simp [spellNegatives, Each]

theorem binders_spellNegatives (expr : Expr) : expr.spellNegatives.binders = expr.binders := by
  induction expr with
  | lit value =>
    rcases value with s | b | n
    · rfl
    · rfl
    · by_cases hn : n < 0 <;> simp [spellNegatives, Value.spelled, hn, binders]
  | unary op operand ih => exact ih
  | binary op left right ihl ihr => rw [spellNegatives, binders, binders, ihl, ihr]
  | cond c t e ihc iht ihe => rw [spellNegatives, binders, binders, ihc, iht, ihe]
  | lam binder body ih => rw [spellNegatives, binders, binders, ih]
  | var id => rfl

theorem binders_canonical (expr : Expr) :
    expr.canonical.binders = countdown (-1) expr.binders.length := by
  rw [canonical, binders_spellNegatives, binders_renumber]

/-! ### Renumbering changes no referent -/

theorem referentWithin?_lit (value : Value) (functions : List (Int × Path)) (here path : Path) :
    (Expr.lit value).referentWithin? functions here path = none := by
  cases path <;> rfl

theorem referentWithin?_spelled (value : Value) (functions : List (Int × Path)) (here path : Path) :
    value.spelled.referentWithin? functions here path = none := by
  rcases value with s | b | n
  · exact referentWithin?_lit _ _ _ _
  · exact referentWithin?_lit _ _ _ _
  · rw [Value.spelled]
    split_ifs
    · rcases path with _ | ⟨_ | i, path⟩
      · rfl
      · exact referentWithin?_lit _ _ _ _
      · rfl
    · exact referentWithin?_lit _ _ _ _

end Expr

/-- The ids that are read back inside `functions` have new ids, above `next`, which refer to the
same inside `functions'`. -/
def KeepsReferents (functions functions' : List (Int × Path)) (rename : Int → Int) (next : Int) :
    Prop :=
  ∀ id, readsBack (functions.map Prod.fst) id = true →
    next < rename id ∧ Referent.of functions' (rename id) = Referent.of functions id

section

variable {functions functions' : List (Int × Path)} {rename : Int → Int} {next : Int} {here : Path}

theorem KeepsReferents.nil : KeepsReferents [] [] id (-1) := by
  intro id h
  rw [List.map_nil, readsBack_nil_iff] at h
  exact ⟨Int.lt_of_lt_of_le (by decide) h, rfl⟩

theorem KeepsReferents.sub (h : KeepsReferents functions functions' rename next) (count : Nat) :
    KeepsReferents functions functions' rename (next - count) := by
  intro id hid
  obtain ⟨hlt, hof⟩ := h id hid
  exact ⟨by omega, hof⟩

theorem KeepsReferents.cons (h : KeepsReferents functions functions' rename next) (binder : Int)
    (here : Path) :
    KeepsReferents ((binder, here) :: functions) ((next, here) :: functions')
      (Function.update rename binder next) (next - 1) := by
  intro id hid
  rw [List.map_cons, readsBack_cons_iff] at hid
  by_cases heq : id = binder
  · subst heq
    rw [Function.update_self, Referent.of_cons_self, Referent.of_cons_self]
    exact ⟨by omega, rfl⟩
  · rw [Function.update_of_ne heq]
    split_ifs at hid with habs
    · exact absurd hid.symm heq
    · obtain ⟨hlt, hof⟩ := h id hid
      rw [Referent.of_cons_of_ne heq, Referent.of_cons_of_ne (by omega), hof]
      exact ⟨by omega, rfl⟩

namespace Expr

theorem referentWithin?_renumber {expr : Expr}
    (keeps : KeepsReferents functions functions' rename next)
    (h : expr.ReadsBack (functions.map Prod.fst)) (here path : Path) :
    (expr.renumber rename next).spellNegatives.referentWithin? functions' here path =
      expr.referentWithin? functions here path := by
  induction expr generalizing functions functions' rename next here path with
  | lit value => rw [renumber, spellNegatives, referentWithin?_spelled, referentWithin?_lit]
  | unary op operand ih =>
    rcases path with _ | ⟨_ | i, path⟩
    · rfl
    · exact ih keeps h _ _
    · rfl
  | binary op left right ihl ihr =>
    rcases path with _ | ⟨_ | _ | i, path⟩
    · rfl
    · exact ihl keeps h.1 _ _
    · exact ihr (keeps.sub _) h.2 _ _
    · rfl
  | cond c t e ihc iht ihe =>
    rcases path with _ | ⟨_ | _ | _ | i, path⟩
    · rfl
    · exact ihc keeps h.1 _ _
    · exact iht (keeps.sub _) h.2.1 _ _
    · exact ihe ((keeps.sub _).sub _) h.2.2 _ _
    · rfl
  | lam binder body ih =>
    rcases path with _ | ⟨_ | i, path⟩
    · rfl
    · exact ih (keeps.cons binder here) h _ _
    · rfl
  | var id =>
    rcases path with _ | ⟨i, path⟩
    · exact congrArg some (keeps id h).2
    · rfl

/-- If every variable reads back, the variables of the canonical form refer to what they referred
to. -/
theorem referent?_canonical {expr : Expr} (h : expr.ReadsBack []) (path : Path) :
    expr.canonical.referent? path = expr.referent? path :=
  referentWithin?_renumber KeepsReferents.nil h [] path

/-! ### Dropping the signs -/

/-- Without signs every variable reads back. -/
theorem readsBack_absolute (expr : Expr) {binders : List Int} (h : ∀ id ∈ binders, 0 ≤ id) :
    expr.absolute.ReadsBack binders := by
  induction expr generalizing binders with
  | lit value => trivial
  | unary op operand ih => exact ih h
  | binary op left right ihl ihr => exact ⟨ihl h, ihr h⟩
  | cond c t e ihc iht ihe => exact ⟨ihc h, iht h, ihe h⟩
  | lam binder body ih => exact ih (List.forall_mem_cons.2 ⟨Int.natCast_nonneg _, h⟩)
  | var id =>
    induction binders with
    | nil => exact readsBack_nil_iff.2 (Int.natCast_nonneg _)
    | cons binder binders ih =>
      obtain ⟨hbinder, hbinders⟩ := List.forall_mem_cons.1 h
      refine readsBack_cons_iff.2 ?_
      split_ifs with habs
      · omega
      · exact ih hbinders

/-- The functions without the signs of their binders. -/
def absoluteFunctions (functions : List (Int × Path)) : List (Int × Path) :=
  functions.map fun (binder, here) => (↑binder.natAbs, here)

theorem absoluteFunctions_cons (binder : Int) (here : Path) (functions : List (Int × Path)) :
    absoluteFunctions ((binder, here) :: functions) =
      (↑binder.natAbs, here) :: absoluteFunctions functions := rfl

/-- The positions of the functions and of the expression inside them get longer from the outermost
function on. -/
def Nested (functions : List (Int × Path)) (here : Path) : Prop :=
  (here :: functions.map Prod.snd).Pairwise fun inner outer => outer.length < inner.length

theorem Nested.nil (here : Path) : Nested [] here := List.pairwise_singleton _ _

theorem Nested.child (h : Nested functions here) (i : Nat) : Nested functions (here ++ [i]) := by
  obtain ⟨hhere, hfunctions⟩ := List.pairwise_cons.1 h
  refine List.pairwise_cons.2 ⟨fun outer hmem => ?_, hfunctions⟩
  have := hhere outer hmem
  rw [List.length_append]
  omega

theorem Nested.body (h : Nested functions here) (binder : Int) :
    Nested ((binder, here) :: functions) (here ++ [0]) := by
  refine List.pairwise_cons.2 ⟨List.forall_mem_cons.2 ⟨by simp, fun outer hmem => ?_⟩, h⟩
  have := (List.pairwise_cons.1 h).1 outer hmem
  rw [List.length_append]
  omega

/-- A variable that refers without its sign to what it referred to is read back. -/
theorem readsBack_of_referent_eq {id : Int} (nested : Nested functions here)
    (h : Referent.of (absoluteFunctions functions) id.natAbs = Referent.of functions id) :
    readsBack (functions.map Prod.fst) id = true := by
  induction functions generalizing here with
  | nil =>
    have hfree : ((id.natAbs : Nat) : Int) = id := Referent.free.inj h
    exact readsBack_nil_iff.2 (by omega)
  | cons function functions ih =>
    obtain ⟨binder, position⟩ := function
    have nested' : Nested functions position := (List.pairwise_cons.1 nested).2
    show readsBack (binder :: functions.map Prod.fst) id = true
    rw [readsBack_cons_iff]
    rw [absoluteFunctions_cons] at h
    by_cases heq : id = binder
    · simp [heq]
    · rw [Referent.of_cons_of_ne heq] at h
      split_ifs with habs
      -- Without the signs, the variable refers to the first function; with them, to a later one.
      · rw [habs, Referent.of_cons_self] at h
        have hmem := Referent.mem_of_eq_function h.symm
        have := (List.pairwise_cons.1 nested').1 position hmem
        omega
      · rw [Referent.of_cons_of_ne (by omega)] at h
        exact ih nested' h

theorem readsBack_of_referentWithin? {expr : Expr} (nested : Nested functions here)
    (h : ∀ path referent, expr.referentWithin? functions here path = some referent →
      expr.absolute.referentWithin? (absoluteFunctions functions) here path = some referent) :
    expr.ReadsBack (functions.map Prod.fst) := by
  induction expr generalizing functions here with
  | lit value => trivial
  | unary op operand ih => exact ih (nested.child 0) fun path => h (0 :: path)
  | binary op left right ihl ihr =>
    exact ⟨ihl (nested.child 0) fun path => h (0 :: path),
      ihr (nested.child 1) fun path => h (1 :: path)⟩
  | cond c t e ihc iht ihe =>
    exact ⟨ihc (nested.child 0) fun path => h (0 :: path),
      iht (nested.child 1) fun path => h (1 :: path),
      ihe (nested.child 2) fun path => h (2 :: path)⟩
  | lam binder body ih => exact ih (nested.body binder) fun path => h (0 :: path)
  | var id => exact readsBack_of_referent_eq nested (Option.some.inj (h [] _ rfl))

/-- If without the signs every variable refers to what it referred to, every variable reads back. -/
theorem readsBack_of_referent?_absolute {expr : Expr}
    (h : ∀ path referent, expr.referent? path = some referent →
      expr.absolute.referent? path = some referent) : expr.ReadsBack [] :=
  readsBack_of_referentWithin? (Nested.nil []) h

end Expr

end

end Lambda94
