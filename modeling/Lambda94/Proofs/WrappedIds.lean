import Lambda94.Expr.Json
import Lambda94.Proofs.RoundTrip

/-!
# Ids that wrap

An id is written by its absolute value, whatever its size, but what is read wraps to 64 bits.  The
text of an expression is read as the expression that its numerals decode to, with binders of its
own: `Program.ofText_text_decoded`.

Ids that differ in what is written may be the same in what is read.  The check of a variable
compares absolute values and does not see that: `referents_of_toWire_iff` says exactly when
variables keep their referents, and `wrapped_id_captured` is an expression, given as JSON, that is
written though its variable is read back as that of another function.
-/

namespace Lambda94

/-! ### What is read -/

/-- The integer that is read where `id` is written. -/
def Wire.decodedId (id : Int) : Int := wrap id.natAbs

/-- The expression that is read where a value is written. -/
def Value.decoded : Value → Expr
  | .int n =>
    if n < 0 then .unary .negate (.lit (.int (Wire.decodedId n)))
    else .lit (.int (Wire.decodedId n))
  | value => .lit value

namespace Expr

/-- The expression that is read where an expression is written, before its functions are given
binders of their own. -/
def decoded : Expr → Expr
  | .lit value => value.decoded
  | .unary op operand => .unary op operand.decoded
  | .binary op left right => .binary op left.decoded right.decoded
  | .cond c t e => .cond c.decoded t.decoded e.decoded
  | .lam binder body => .lam (Wire.decodedId binder) body.decoded
  | .var id => .var (Wire.decodedId id)

theorem binders_decoded (expr : Expr) :
    expr.decoded.binders = expr.binders.map Wire.decodedId := by
  induction expr with
  | lit value =>
    rcases value with s | b | n
    · rfl
    · rfl
    · rw [decoded, Value.decoded]
      split_ifs <;> rfl
  | unary op operand ih => exact ih
  | binary op left right ihl ihr => rw [decoded, binders, binders, List.map_append, ihl, ihr]
  | cond c t e ihc iht ihe =>
    rw [decoded, binders, binders, List.map_append, List.map_append, ihc, iht, ihe]
  | lam binder body ih => rw [decoded, binders, binders, List.map_cons, ih]
  | var id => rfl

theorem length_binders_decoded (expr : Expr) :
    expr.decoded.binders.length = expr.binders.length := by
  rw [binders_decoded, List.length_map]

end Expr

theorem Scope.resolve_bind {scope : Scope} (ordered : scope.Ordered) (numeral binder : Int) :
    (scope.bind numeral binder).resolve = Function.update scope.resolve numeral binder := by
  funext n
  rw [resolve, lookup?_bind ordered, Function.update_apply]
  split_ifs <;> rfl

theorem Value.run_rename_tree_decoded {value : Value} (encodable : value.Encodable) (scope : Scope)
    (rename : Int → Int) (next : Int) (ids : IdSupply) (position : Nat) :
    ((value.tree position).rename scope).run ids =
      .ok (value.decoded.renumber rename next) ids := by
  have numeral (n : Int) : Wire.decodeInteger (Wire.encodeNat n.natAbs) = .ok (Wire.decodedId n) :=
    Wire.decodeInteger_encodeNat _
  rcases value with s | b | n
  · rw [tree, ParseTree.rename]
    show EStateM.Result.ok (Expr.lit (.str (Wire.decodeString (Wire.encodeString s)))) ids = _
    rw [Wire.decodeString_encodeString encodable]
    rfl
  · cases b with
    | false | true => rfl
  · rw [tree, decoded]
    split_ifs
    · exact ParseTree.run_rename_unary rfl (ParseTree.run_rename_integer (numeral n))
    · exact ParseTree.run_rename_integer (numeral n)

/-- Renaming the parse tree of an expression renumbers what the expression decodes to. -/
theorem Expr.run_rename_tree_decoded {expr : Expr} (encodable : expr.Encodable) {scope : Scope}
    (ordered : scope.Ordered) (ids : IdSupply) (position : Nat) :
    ((expr.tree position).rename scope).run ids =
      .ok (expr.decoded.renumber scope.resolve ids.current) (ids.skip expr.binders.length) := by
  induction expr generalizing scope ids position with
  | lit value => exact value.run_rename_tree_decoded encodable scope _ _ ids position
  | unary op operand ih => exact ParseTree.run_rename_unary rfl (ih encodable ordered ids _)
  | binary op left right ihl ihr =>
    have hleft := ihl encodable.1 ordered ids (position + 1)
    have hright := ihr encodable.2 ordered (ids.skip left.binders.length)
      (position + 1 + left.words.length)
    rw [IdSupply.current_skip, IdSupply.skip_skip] at hright
    rw [decoded, renumber, length_binders_decoded, Expr.binders, List.length_append]
    exact ParseTree.run_rename_binary rfl hleft hright
  | cond c t e ihc iht ihe =>
    have hcond := ihc encodable.1 ordered ids (position + 1)
    have hthen := iht encodable.2.1 ordered (ids.skip c.binders.length)
      (position + 1 + c.words.length)
    have helse := ihe encodable.2.2 ordered (ids.skip (c.binders.length + t.binders.length))
      (position + 1 + c.words.length + t.words.length)
    rw [IdSupply.current_skip, IdSupply.skip_skip] at hthen
    rw [IdSupply.current_skip, IdSupply.skip_skip, Nat.cast_add, ← Int.sub_sub] at helse
    rw [decoded, renumber, length_binders_decoded, length_binders_decoded, Expr.binders,
      List.length_append, List.length_append]
    exact ParseTree.run_rename_conditional hcond hthen helse
  | lam binder body ih =>
    have hbody := ih encodable.2 (ordered.insert (Wire.decodedId binder) ids.current) ids.advance
      (position + 1)
    have hresolve := Scope.resolve_bind ordered (Wire.decodedId binder) ids.current
    rw [Scope.bind] at hresolve
    rw [hresolve, IdSupply.current_advance, IdSupply.skip_advance] at hbody
    exact ParseTree.run_rename_lambda (Wire.decodeInteger_encodeNat _) hbody
  | var id => exact ParseTree.run_rename_variable (Wire.decodeInteger_encodeNat _)

/-- The text of an expression whose strings can be encoded is read as what the expression decodes
to, with the binders counting down from `-1`. -/
theorem Program.ofText_text_decoded {expr : Expr} (encodable : expr.Encodable) :
    Program.ofText expr.text = .ok ⟨expr.decoded.renumber id (-1), expr.binders.length⟩ := by
  have run := expr.run_rename_tree_decoded encodable Avl.ordered_empty .initial 0
  rw [Program.ofText, ParseTree.ofText_text encodable]
  dsimp only
  rw [Scope.empty, run]
  simp [IdSupply.initial, IdSupply.ofSeed, IdSupply.skip, IdSupply.current]
  rfl

/-! ### Which variables keep their referents -/

/-- A variable that is written and read inside the given binders, innermost first, is read as the
variable of `id`: of the functions with the numeral that is read, the nearest has the binder `id`,
or, if there is none, the numeral is `id`. -/
def readsBackWrapped (binders : List Int) (id : Int) : Bool :=
  match binders.find? fun binder => Wire.decodedId binder == Wire.decodedId id with
  | some binder => binder == id
  | none => Wire.decodedId id == id

/-- Every variable, written and read inside the given binders, is read as the variable that it
is. -/
def Expr.ReadsBackWrapped (binders : List Int) : Expr → Prop
  | .lit _ => True
  | .unary _ operand => operand.ReadsBackWrapped binders
  | .binary _ left right => left.ReadsBackWrapped binders ∧ right.ReadsBackWrapped binders
  | .cond c t e =>
    c.ReadsBackWrapped binders ∧ t.ReadsBackWrapped binders ∧ e.ReadsBackWrapped binders
  | .lam binder body => body.ReadsBackWrapped (binder :: binders)
  | .var id => readsBackWrapped binders id = true

/-- The nearest of the functions that are read with a numeral, innermost first. -/
def nearest? (functions : List (Int × Path)) (numeral : Int) : Option (Int × Path) :=
  functions.find? fun function => Wire.decodedId function.1 == numeral

section

variable {functions functions' : List (Int × Path)} {here : Path}

theorem nearest?_cons_self (functions : List (Int × Path)) (binder : Int) (here : Path) :
    nearest? ((binder, here) :: functions) (Wire.decodedId binder) = some (binder, here) := by
  simp [nearest?]

theorem nearest?_cons_of_ne {binder numeral : Int} (h : numeral ≠ Wire.decodedId binder)
    (functions : List (Int × Path)) (here : Path) :
    nearest? ((binder, here) :: functions) numeral = nearest? functions numeral := by
  simp [nearest?, Ne.symm h]

theorem readsBackWrapped_map_fst (functions : List (Int × Path)) (id : Int) :
    readsBackWrapped (functions.map Prod.fst) id =
      match nearest? functions (Wire.decodedId id) with
      | some (binder, _) => binder == id
      | none => Wire.decodedId id == id := by
  rw [readsBackWrapped, List.find?_map, nearest?]
  show (match (functions.find? fun function =>
      Wire.decodedId function.1 == Wire.decodedId id).map Prod.fst with
    | some binder => binder == id
    | none => Wire.decodedId id == id) = _
  cases functions.find? fun function => Wire.decodedId function.1 == Wire.decodedId id <;> rfl

theorem Referent.eq_of_of_eq_free {id id' : Int} (h : Referent.of functions id = .free id') :
    id = id' := by
  unfold Referent.of at h
  split at h
  next => cases h
  next => exact Referent.free.inj h

/-- A variable refers to the nearest function with its numeral exactly if that has its id. -/
theorem Referent.of_eq_function_iff {id binder : Int} {position : Path}
    (nested : Expr.Nested functions here)
    (h : nearest? functions (Wire.decodedId id) = some (binder, position)) :
    Referent.of functions id = .function position ↔ binder = id := by
  induction functions generalizing here with
  | nil => cases h
  | cons function functions ih =>
    obtain ⟨binder', position'⟩ := function
    have nested' : Expr.Nested functions position' := (List.pairwise_cons.1 nested).2
    by_cases hid : id = binder'
    · subst hid
      rw [nearest?_cons_self] at h
      cases h
      rw [Referent.of_cons_self]
      exact ⟨fun _ => rfl, fun _ => rfl⟩
    rw [Referent.of_cons_of_ne hid]
    by_cases hnumeral : Wire.decodedId id = Wire.decodedId binder'
    · rw [hnumeral, nearest?_cons_self] at h
      cases h
      -- The functions that come later are at other positions.
      refine ⟨fun h' => ?_, fun h' => absurd h'.symm hid⟩
      have := (List.pairwise_cons.1 nested').1 position (Referent.mem_of_eq_function h')
      omega
    · rw [nearest?_cons_of_ne hnumeral] at h
      exact ih nested' h

/-- A variable that is written though no function around it is read with its numeral is free, and
its id is not negative. -/
theorem Referent.of_eq_free {id : Int} (h : nearest? functions (Wire.decodedId id) = none)
    (reads : readsBack (functions.map Prod.fst) id = true) :
    Referent.of functions id = .free id ∧ 0 ≤ id := by
  induction functions with
  | nil => exact ⟨rfl, readsBack_nil_iff.1 reads⟩
  | cons function functions ih =>
    obtain ⟨binder, position⟩ := function
    have hnumeral : Wire.decodedId id ≠ Wire.decodedId binder := by
      intro heq
      rw [heq, nearest?_cons_self] at h
      cases h
    have habs : binder.natAbs ≠ id.natAbs := fun heq => hnumeral (by
      rw [Wire.decodedId, Wire.decodedId, heq])
    rw [nearest?_cons_of_ne hnumeral] at h
    rw [List.map_cons, readsBack_cons_iff, if_neg habs] at reads
    rw [Referent.of_cons_of_ne (by rintro rfl; exact habs rfl)]
    exact ih h reads

/-- What is read inside `functions'`, in place of what was written inside `functions`: a numeral is
resolved to the id of the nearest function that was written with it, or else is a free variable. -/
structure ReadInPlace (functions functions' : List (Int × Path)) (resolve : Int → Int)
    (next : Int) : Prop where
  negative : next < 0
  bound : ∀ numeral binder position, nearest? functions numeral = some (binder, position) →
    next < resolve numeral ∧ Referent.of functions' (resolve numeral) = .function position
  unbound : ∀ numeral, nearest? functions numeral = none → resolve numeral = numeral
  free : ∀ id, 0 ≤ id → Referent.of functions' id = .free id

namespace ReadInPlace

variable {resolve : Int → Int} {next : Int}

theorem nil : ReadInPlace [] [] id (-1) where
  negative := by decide
  bound := nofun
  unbound _ _ := rfl
  free _ _ := rfl

theorem sub (h : ReadInPlace functions functions' resolve next) (count : Nat) :
    ReadInPlace functions functions' resolve (next - count) where
  negative := by have := h.negative; omega
  bound numeral binder position hnearest := by
    obtain ⟨hlt, hof⟩ := h.bound numeral binder position hnearest
    exact ⟨by omega, hof⟩
  unbound := h.unbound
  free := h.free

theorem cons (h : ReadInPlace functions functions' resolve next) (binder : Int) (here : Path) :
    ReadInPlace ((binder, here) :: functions) ((next, here) :: functions')
      (Function.update resolve (Wire.decodedId binder) next) (next - 1) where
  negative := by have := h.negative; omega
  bound numeral binder' position hnearest := by
    by_cases heq : numeral = Wire.decodedId binder
    · rw [heq, nearest?_cons_self] at hnearest
      cases hnearest
      rw [heq, Function.update_self, Referent.of_cons_self]
      exact ⟨by omega, rfl⟩
    · rw [nearest?_cons_of_ne heq] at hnearest
      obtain ⟨hlt, hof⟩ := h.bound numeral binder' position hnearest
      rw [Function.update_of_ne heq, Referent.of_cons_of_ne (by omega)]
      exact ⟨by omega, hof⟩
  unbound numeral hnearest := by
    by_cases heq : numeral = Wire.decodedId binder
    · rw [heq, nearest?_cons_self] at hnearest
      cases hnearest
    · rw [nearest?_cons_of_ne heq] at hnearest
      rw [Function.update_of_ne heq, h.unbound numeral hnearest]
  free id hid := by
    have hne : id ≠ next := by have := h.negative; omega
    rw [Referent.of_cons_of_ne hne, h.free id hid]

theorem referent_eq_iff (h : ReadInPlace functions functions' resolve next)
    (nested : Expr.Nested functions here) {id : Int}
    (reads : readsBack (functions.map Prod.fst) id = true) :
    Referent.of functions' (resolve (Wire.decodedId id)) = Referent.of functions id ↔
      readsBackWrapped (functions.map Prod.fst) id = true := by
  rw [readsBackWrapped_map_fst]
  cases hnearest : nearest? functions (Wire.decodedId id) with
  | some function =>
    obtain ⟨binder, position⟩ := function
    rw [(h.bound _ _ _ hnearest).2, eq_comm, Referent.of_eq_function_iff nested hnearest]
    exact beq_iff_eq.symm
  | none =>
    obtain ⟨hfree, hid⟩ := Referent.of_eq_free hnearest reads
    rw [h.unbound _ hnearest, hfree]
    refine Iff.trans ⟨Referent.eq_of_of_eq_free, fun heq => ?_⟩ beq_iff_eq.symm
    rw [heq, h.free id hid]

end ReadInPlace

namespace Expr

/-- By induction over the expression; every function on the way to a variable is added to those
around it, under its own id and under the id that it is read with. -/
theorem referents_renumber_decoded_iff {expr : Expr} {resolve : Int → Int} {next : Int}
    (inPlace : ReadInPlace functions functions' resolve next) (nested : Nested functions here)
    (reads : expr.ReadsBack (functions.map Prod.fst)) :
    (∀ path referent, expr.referentWithin? functions here path = some referent →
      (expr.decoded.renumber resolve next).referentWithin? functions' here path = some referent) ↔
      expr.ReadsBackWrapped (functions.map Prod.fst) := by
  induction expr generalizing functions functions' here resolve next with
  | lit value =>
    refine ⟨fun _ => trivial, fun _ path referent h => ?_⟩
    rw [referentWithin?_lit] at h
    cases h
  | unary op operand ih =>
    rw [ReadsBackWrapped, ← ih inPlace (nested.child 0) reads]
    constructor
    · exact fun h path => h (0 :: path)
    · rintro h (_ | ⟨_ | i, path⟩) referent href
      · cases href
      · exact h path referent href
      · cases href
  | binary op left right ihl ihr =>
    rw [ReadsBackWrapped, ← ihl inPlace (nested.child 0) reads.1,
      ← ihr (inPlace.sub left.decoded.binders.length) (nested.child 1) reads.2]
    constructor
    · exact fun h => ⟨fun path => h (0 :: path), fun path => h (1 :: path)⟩
    · rintro ⟨hl, hr⟩ (_ | ⟨_ | _ | i, path⟩) referent href
      · cases href
      · exact hl path referent href
      · exact hr path referent href
      · cases href
  | cond c t e ihc iht ihe =>
    rw [ReadsBackWrapped, ← ihc inPlace (nested.child 0) reads.1,
      ← iht (inPlace.sub c.decoded.binders.length) (nested.child 1) reads.2.1,
      ← ihe ((inPlace.sub c.decoded.binders.length).sub t.decoded.binders.length)
        (nested.child 2) reads.2.2]
    constructor
    · exact fun h => ⟨fun path => h (0 :: path), fun path => h (1 :: path),
        fun path => h (2 :: path)⟩
    · rintro ⟨hc, ht, he⟩ (_ | ⟨_ | _ | _ | i, path⟩) referent href
      · cases href
      · exact hc path referent href
      · exact ht path referent href
      · exact he path referent href
      · cases href
  | lam binder body ih =>
    rw [ReadsBackWrapped]
    refine Iff.trans ?_ (ih (inPlace.cons binder here) (nested.body binder) reads)
    constructor
    · exact fun h path => h (0 :: path)
    · rintro h (_ | ⟨_ | i, path⟩) referent href
      · cases href
      · exact h path referent href
      · cases href
  | var id =>
    rw [ReadsBackWrapped, ← inPlace.referent_eq_iff nested reads]
    constructor
    · exact fun h => Option.some.inj (h [] _ rfl)
    · rintro h (_ | ⟨i, path⟩) referent href
      · cases href
        exact congrArg some h
      · cases href

/-- Ids that have 63 bits without their signs are read as they are written. -/
theorem readsBackWrapped_of_small {expr : Expr}
    (small : expr.Each (fun _ => True) (·.natAbs < 2 ^ 63) (·.natAbs < 2 ^ 63))
    {binders : List Int} (hbinders : ∀ id ∈ binders, id.natAbs < 2 ^ 63)
    (reads : expr.ReadsBack binders) : expr.ReadsBackWrapped binders := by
  have hdecoded : ∀ id : Int, id.natAbs < 2 ^ 63 → Wire.decodedId id = id.natAbs :=
    fun id h => wrap_eq_self (by omega) (by omega)
  induction expr generalizing binders with
  | lit value => trivial
  | unary op operand ih => exact ih small hbinders reads
  | binary op left right ihl ihr =>
    exact ⟨ihl small.1 hbinders reads.1, ihr small.2 hbinders reads.2⟩
  | cond c t e ihc iht ihe =>
    exact ⟨ihc small.1 hbinders reads.1, iht small.2.1 hbinders reads.2.1,
      ihe small.2.2 hbinders reads.2.2⟩
  | lam binder body ih =>
    exact ih small.2 (List.forall_mem_cons.2 ⟨small.1, hbinders⟩) reads
  | var id =>
    have hid : id.natAbs < 2 ^ 63 := small
    have hfind : (binders.find? fun binder => Wire.decodedId binder == Wire.decodedId id) =
        resolve? binders id := by
      refine List.find?_congr fun binder hbinder => ?_
      rw [hdecoded binder (hbinders binder hbinder), hdecoded id hid, Bool.eq_iff_iff, beq_iff_eq,
        beq_iff_eq, Int.natCast_inj]
    rw [ReadsBack, readsBack] at reads
    rw [ReadsBackWrapped, readsBackWrapped, hfind]
    cases hresolve : resolve? binders id with
    | some binder =>
      rw [hresolve] at reads
      exact reads
    | none =>
      rw [hresolve] at reads
      have hnonneg : 0 ≤ id := of_decide_eq_true reads
      rw [hdecoded id hid, beq_iff_eq]
      omega

end Expr

end

/-! ### Main result -/

/-- An expression that is written, whatever the size of its ids, is read back as an expression in
which every variable refers to the same as before exactly if every variable reads back with numerals
compared as they are read, wrapped to 64 bits.  This is so if all ids are smaller than `2 ^ 63`
without their signs. -/
theorem referents_of_toWire_iff {expr : Expr} {written : Text}
    (write : expr.toWire = .ok written) :
    ∃ back, Expr.ofText written = .ok back ∧
      back.binders = countdown (-1) expr.binders.length ∧
      ((∀ path referent, expr.referent? path = some referent →
        back.referent? path = some referent) ↔ expr.ReadsBackWrapped []) ∧
      (expr.Each (fun _ => True) (·.natAbs < 2 ^ 63) (·.natAbs < 2 ^ 63) →
        expr.ReadsBackWrapped []) := by
  obtain ⟨encodable, reads, rfl⟩ := Expr.toWire_eq_ok_iff.1 write
  have back := Expr.ofText_eq_ok_iff.2 ⟨_, Program.ofText_text_decoded encodable, rfl⟩
  refine ⟨_, back, ?_, Expr.referents_renumber_decoded_iff .nil (.nil []) reads,
    fun small => Expr.readsBackWrapped_of_small small nofun reads⟩
  rw [Expr.binders_renumber, Expr.length_binders_decoded]

/-- Two ids of more than 64 bits: a function that reads back, though its numeral is read as zero,
and a function whose numeral is read as that of the function around it. -/
theorem referents_of_toWire_iff_large :
    ∃ kept captured : Expr,
      kept = .lam (2 ^ 64) (.var (2 ^ 64)) ∧
      captured = .lam 1 (.lam (2 ^ 64 + 1) (.var 1)) ∧
      (∃ written back, kept.toWire = .ok written ∧ Expr.ofText written = .ok back ∧
        ∀ path referent, kept.referent? path = some referent →
          back.referent? path = some referent) ∧
      ∃ written back, captured.toWire = .ok written ∧ Expr.ofText written = .ok back ∧
        ¬ ∀ path referent, captured.referent? path = some referent →
          back.referent? path = some referent := by
  have written₁ : (Expr.lam (2 ^ 64) (.var (2 ^ 64))).toWire =
      .ok "LA33?&-jqQi vA33?&-jqQi" := by
    cbv
  have written₂ : (Expr.lam 1 (.lam (2 ^ 64 + 1) (.var 1))).toWire =
      .ok "L\" LA33?&-jqQj v\"" := by
    cbv
  have reads₁ : (Expr.lam (2 ^ 64) (.var (2 ^ 64))).ReadsBackWrapped [] := by
    simp [Expr.ReadsBackWrapped, readsBackWrapped]
  have reads₂ : ¬ (Expr.lam 1 (.lam (2 ^ 64 + 1) (.var 1))).ReadsBackWrapped [] := by
    simp [Expr.ReadsBackWrapped, readsBackWrapped, Wire.decodedId, wrap]
  obtain ⟨back₁, read₁, -, same₁, -⟩ := referents_of_toWire_iff written₁
  obtain ⟨back₂, read₂, -, same₂, -⟩ := referents_of_toWire_iff written₂
  exact ⟨_, _, rfl, rfl, ⟨_, back₁, written₁, read₁, same₁.2 reads₁⟩, _, back₂, written₂, read₂,
    fun h => reads₂ (same₂.1 h)⟩

/-- The binders `1` and `2 ^ 64 + 1`, one function inside the other, given as JSON: the variable `1`
is written, and is read back as that of the inner function. -/
theorem wrapped_id_captured :
    ∃ expr json written back,
      expr = .lam 1 (.lam (2 ^ 64 + 1) (.var 1)) ∧ json = expr.toJsonText 0 ∧
      Expr.ofJsonText json = .ok expr ∧ expr.toWire = .ok written ∧
      Expr.ofText written = .ok back ∧ back = .lam (-1) (.lam (-2) (.var (-2))) ∧
      expr.referent? [0, 0] = some (.function []) ∧
      back.referent? [0, 0] = some (.function [0]) := by
  let expr : Expr := .lam 1 (.lam (2 ^ 64 + 1) (.var 1))
  have given : Expr.ofJsonText (expr.toJsonText 0) = .ok expr := by decide +kernel
  have write : expr.toWire = .ok "L\" LA33?&-jqQj v\"" := by cbv
  have read : Expr.ofText "L\" LA33?&-jqQj v\"" = .ok (.lam (-1) (.lam (-2) (.var (-2)))) := by
    cbv
  exact ⟨expr, _, _, _, rfl, rfl, given, write, read, rfl, rfl, rfl⟩

end Lambda94
