import Lambda94.Rename

/-!
# Programs

The expression that a text denotes: its tokens are grouped into a parse tree and the tree is
renamed, with binders counting down from `-1`.
-/

namespace Lambda94

/-- A program that was read from text. -/
structure Program where
  expr : Expr
  /-- The number of functions; their binders are `-1` to `-binderCount`. -/
  binderCount : Nat
deriving DecidableEq, Repr

namespace Program

/-- Reads a whole program. -/
def ofText (text : Text) : Except ReadError Program :=
  match ParseTree.ofText text with
  | .error error => .error (.parse error)
  | .ok tree =>
    match (tree.rename .empty).run .initial with
    | .ok expr ids => .ok ⟨expr, ids.used⟩
    | .error error _ => .error error

end Program

/-- Reads a whole program and returns its expression. -/
def Expr.ofText (text : Text) : Except ReadError Expr := (Program.ofText text).map Program.expr

theorem Expr.ofText_eq_ok_iff {text : Text} {expr : Expr} :
    Expr.ofText text = .ok expr ↔
      ∃ program, Program.ofText text = .ok program ∧ program.expr = expr := by
  rw [Expr.ofText]
  cases Program.ofText text with
  | error error => exact ⟨nofun, nofun⟩
  | ok program =>
    refine ⟨fun h => ⟨program, rfl, Except.ok.inj h⟩, ?_⟩
    rintro ⟨_, ⟨⟩, rfl⟩
    rfl

end Lambda94
