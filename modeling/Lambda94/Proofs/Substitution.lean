import Lambda94.Expr.Basic
import Mathlib.Data.List.Basic
import Mathlib.Logic.Function.Basic

/-!
# Capture-avoiding substitution

Substitution replaces all free variables of an expression at a time.  A function whose binder would
capture a free variable of a substituted expression gets a fresh binder, so the free variables of
the result are those of the expressions that were put in: `mem_freeVars_subst`.  Where every
substituted expression is closed, or the variable itself, no binder has to change, and two
substitutions are one: `subst_subst`.
-/

namespace Lambda94

namespace Expr

/-! ### Free variables -/

/-- The variables that are not bound by a function around them. -/
def freeVars : Expr → List Int
  | .lit _ => []
  | .unary _ operand => operand.freeVars
  | .binary _ left right => left.freeVars ++ right.freeVars
  | .cond condition thenBranch elseBranch =>
    condition.freeVars ++ thenBranch.freeVars ++ elseBranch.freeVars
  | .lam binder body => body.freeVars.filter (· ≠ binder)
  | .var id => [id]

/-- An expression without free variables. -/
def Closed (expr : Expr) : Prop := expr.freeVars = []

instance (expr : Expr) : Decidable expr.Closed := inferInstanceAs (Decidable (expr.freeVars = []))

theorem closed_iff {expr : Expr} : expr.Closed ↔ ∀ id, id ∉ expr.freeVars :=
  List.eq_nil_iff_forall_not_mem

theorem mem_freeVars_lam {id binder : Int} {body : Expr} :
    id ∈ (lam binder body).freeVars ↔ id ∈ body.freeVars ∧ id ≠ binder := by
  simp [freeVars]

/-! ### Substitution -/

/-- An id that is not in the list. -/
def freshId (ids : List Int) : Int := ids.foldr (fun id bound => max (id + 1) bound) 0

theorem lt_freshId {id : Int} {ids : List Int} (h : id ∈ ids) : id < freshId ids := by
  induction ids with
  | nil => exact absurd h List.not_mem_nil
  | cons head rest ih =>
    rw [freshId, List.foldr_cons, ← freshId]
    rcases List.mem_cons.1 h with rfl | h
    · omega
    · have := ih h
      omega

theorem freshId_notMem (ids : List Int) : freshId ids ∉ ids :=
  fun h => Int.lt_irrefl _ (lt_freshId h)

/-- The free variables that a substitution brings into the body of a function. -/
def entering (σ : Int → Expr) (binder : Int) (body : Expr) : List Int :=
  (lam binder body).freeVars.flatMap fun id => (σ id).freeVars

/-- The binder of a function after a substitution: its own, unless it would capture a variable. -/
def binderFor (σ : Int → Expr) (binder : Int) (body : Expr) : Int :=
  if binder ∈ entering σ binder body then freshId (entering σ binder body) else binder

/-- Replaces every free variable by the expression that `σ` has for it. -/
def subst : Expr → (Int → Expr) → Expr
  | .lit value, _ => .lit value
  | .unary op operand, σ => .unary op (operand.subst σ)
  | .binary op left right, σ => .binary op (left.subst σ) (right.subst σ)
  | .cond condition thenBranch elseBranch, σ =>
    .cond (condition.subst σ) (thenBranch.subst σ) (elseBranch.subst σ)
  | .lam binder body, σ =>
    .lam (binderFor σ binder body)
      (body.subst (Function.update σ binder (.var (binderFor σ binder body))))
  | .var id, σ => σ id

/-- The body of a function with its argument put in. -/
def instantiate (body : Expr) (binder : Int) (arg : Expr) : Expr :=
  body.subst (Function.update .var binder arg)

theorem binderFor_notMem_entering (σ : Int → Expr) (binder : Int) (body : Expr) :
    binderFor σ binder body ∉ entering σ binder body := by
  unfold binderFor
  split_ifs with h
  · exact freshId_notMem _
  · exact h

/-- Nothing is captured: the free variables of the result are those that were put in. -/
theorem mem_freeVars_subst {expr : Expr} {σ : Int → Expr} {id : Int} :
    id ∈ (expr.subst σ).freeVars ↔ ∃ id' ∈ expr.freeVars, id ∈ (σ id').freeVars := by
  induction expr generalizing σ with
  | lit value => simp [subst, freeVars]
  | unary op operand ih => exact ih
  | binary op left right ihl ihr =>
    simp only [subst, freeVars, List.mem_append, ihl, ihr, or_and_right, exists_or]
  | cond c t e ihc iht ihe =>
    simp only [subst, freeVars, List.mem_append, ihc, iht, ihe, or_and_right, exists_or]
  | lam binder body ih =>
    simp only [subst, mem_freeVars_lam, ih]
    constructor
    · rintro ⟨⟨id', hid', hmem⟩, hne⟩
      by_cases hbinder : id' = binder
      · rw [hbinder, Function.update_self] at hmem
        exact absurd (List.mem_singleton.1 hmem) hne
      · rw [Function.update_of_ne hbinder] at hmem
        exact ⟨id', ⟨hid', hbinder⟩, hmem⟩
    · rintro ⟨id', ⟨hid', hbinder⟩, hmem⟩
      refine ⟨⟨id', hid', by rwa [Function.update_of_ne hbinder]⟩, ?_⟩
      rintro rfl
      refine binderFor_notMem_entering σ binder body (List.mem_flatMap.2 ⟨id', ?_, hmem⟩)
      exact mem_freeVars_lam.2 ⟨hid', hbinder⟩
  | var id' => simp [subst, freeVars]

theorem subst_congr {expr : Expr} {σ τ : Int → Expr} (h : ∀ id ∈ expr.freeVars, σ id = τ id) :
    expr.subst σ = expr.subst τ := by
  induction expr generalizing σ τ with
  | lit value => rfl
  | unary op operand ih => rw [subst, subst, ih h]
  | binary op left right ihl ihr =>
    rw [subst, subst, ihl fun id hid => h id (List.mem_append_left _ hid),
      ihr fun id hid => h id (List.mem_append_right _ hid)]
  | cond c t e ihc iht ihe =>
    simp only [freeVars, List.mem_append] at h
    rw [subst, subst, ihc fun id hid => h id (.inl (.inl hid)),
      iht fun id hid => h id (.inl (.inr hid)), ihe fun id hid => h id (.inr hid)]
  | lam binder body ih =>
    have hbinder : binderFor σ binder body = binderFor τ binder body := by
      have hentering : entering σ binder body = entering τ binder body :=
        List.flatMap_congr fun id hid => by rw [h id hid]
      rw [binderFor, binderFor, hentering]
    rw [subst, subst, hbinder]
    congr 1
    refine ih fun id hid => ?_
    by_cases hid' : id = binder
    · rw [hid', Function.update_self, Function.update_self]
    · rw [Function.update_of_ne hid', Function.update_of_ne hid']
      exact h id (mem_freeVars_lam.2 ⟨hid, hid'⟩)
  | var id => exact h id (List.mem_singleton_self id)

/-! ### Substituting closed expressions -/

/-- A substitution that leaves a variable alone or replaces it by a closed expression. -/
def Ground (σ : Int → Expr) : Prop := ∀ id, σ id = .var id ∨ (σ id).Closed

theorem ground_var : Ground .var := fun _ => .inl rfl

theorem Ground.update_var {σ : Int → Expr} (h : Ground σ) (binder : Int) :
    Ground (Function.update σ binder (.var binder)) := by
  intro id
  by_cases hid : id = binder
  · rw [hid, Function.update_self]
    exact .inl rfl
  · rw [Function.update_of_ne hid]
    exact h id

theorem Ground.update_closed {σ : Int → Expr} (h : Ground σ) (binder : Int) {arg : Expr}
    (closed : arg.Closed) : Ground (Function.update σ binder arg) := by
  intro id
  by_cases hid : id = binder
  · rw [hid, Function.update_self]
    exact .inr closed
  · rw [Function.update_of_ne hid]
    exact h id

/-- A ground substitution changes no binder. -/
theorem subst_lam_of_ground {σ : Int → Expr} (h : Ground σ) (binder : Int) (body : Expr) :
    (lam binder body).subst σ =
      lam binder (body.subst (Function.update σ binder (.var binder))) := by
  have hbinder : binder ∉ entering σ binder body := by
    rw [entering, List.mem_flatMap]
    rintro ⟨id, hid, hmem⟩
    have hne := (mem_freeVars_lam.1 hid).2
    rcases h id with hvar | hclosed
    · rw [hvar] at hmem
      exact hne (List.mem_singleton.1 hmem).symm
    · exact closed_iff.1 hclosed binder hmem
  rw [subst, binderFor, if_neg hbinder]

theorem subst_var (expr : Expr) : expr.subst .var = expr := by
  induction expr with
  | lit value => rfl
  | unary op operand ih => rw [subst, ih]
  | binary op left right ihl ihr => rw [subst, ihl, ihr]
  | cond c t e ihc iht ihe => rw [subst, ihc, iht, ihe]
  | lam binder body ih => rw [subst_lam_of_ground ground_var, Function.update_eq_self, ih]
  | var id => rfl

theorem Closed.subst_eq {expr : Expr} (h : expr.Closed) (σ : Int → Expr) : expr.subst σ = expr := by
  rw [subst_congr fun id hid => absurd hid (closed_iff.1 h id), subst_var]

/-- The substitution that replaces by `σ` first and by `τ` then. -/
theorem Ground.comp {σ τ : Int → Expr} (hσ : Ground σ) (hτ : Ground τ) :
    Ground fun id => (σ id).subst τ := by
  intro id
  show (σ id).subst τ = .var id ∨ ((σ id).subst τ).Closed
  rcases hσ id with hvar | hclosed
  · rw [hvar, subst]
    exact hτ id
  · rw [hclosed.subst_eq τ]
    exact hσ id

theorem subst_subst {σ τ : Int → Expr} (hσ : Ground σ) (hτ : Ground τ) (expr : Expr) :
    (expr.subst σ).subst τ = expr.subst fun id => (σ id).subst τ := by
  induction expr generalizing σ τ with
  | lit value => rfl
  | unary op operand ih => simp only [subst, ih hσ hτ]
  | binary op left right ihl ihr => simp only [subst, ihl hσ hτ, ihr hσ hτ]
  | cond c t e ihc iht ihe => simp only [subst, ihc hσ hτ, iht hσ hτ, ihe hσ hτ]
  | lam binder body ih =>
    rw [subst_lam_of_ground hσ, subst_lam_of_ground hτ, subst_lam_of_ground (hσ.comp hτ),
      ih (hσ.update_var binder) (hτ.update_var binder)]
    congr 2
    funext id
    by_cases hid : id = binder
    · rw [hid, Function.update_self, Function.update_self, subst, Function.update_self]
    · rw [Function.update_of_ne hid, Function.update_of_ne hid]
      rcases hσ id with hvar | hclosed
      · rw [hvar, subst, subst, Function.update_of_ne hid]
      · rw [hclosed.subst_eq, hclosed.subst_eq]
  | var id => rfl

/-- Putting a closed argument into the body of a function that was itself closed by `σ`. -/
theorem instantiate_subst {σ : Int → Expr} (hσ : Ground σ) (binder : Int) {arg : Expr}
    (closed : arg.Closed) (body : Expr) :
    (body.subst (Function.update σ binder (.var binder))).instantiate binder arg =
      body.subst (Function.update σ binder arg) := by
  rw [instantiate, subst_subst (hσ.update_var binder) (ground_var.update_closed binder closed)]
  congr 1
  funext id
  by_cases hid : id = binder
  · rw [hid, Function.update_self, Function.update_self, subst, Function.update_self]
  · rw [Function.update_of_ne hid, Function.update_of_ne hid]
    rcases hσ id with hvar | hclosed
    · rw [hvar, subst, Function.update_of_ne hid]
    · rw [hclosed.subst_eq]

end Expr

end Lambda94
