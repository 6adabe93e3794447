import Lambda94.Proofs.Renaming

/-!
# The stops of renaming

Renaming comes to the nodes of a tree, and to the places of children that a node should have, one
after the other in the order of the text.  Whether it objects to one of these stops can be told from
the stop alone.  Whatever the tree, renaming ends at the first stop that it objects to, and it has
taken one id for every function on the way; if it comes to the end, these ids are the binders of the
expression: `ParseTree.walks_rename`.
-/

namespace Lambda94

/-! ### Stops -/

/-- What renaming comes to in a tree. -/
inductive Stop
  /-- A node. -/
  | node (rule : Rule) (token : Token)
  /-- The place of a child that the node does not have. -/
  | gap (rule : Rule) (token : Token) (index : Nat)
deriving DecidableEq, Repr

namespace Stop

/-- What renaming objects to at a stop. -/
def objection? : Stop → Option ReadError
  | .node .unary token =>
    if (UnaryOp.ofCode? token.body).isSome then none else some (.parse (.unknownOperator token))
  | .node .binary token =>
    if (BinaryOp.ofCode? token.body).isSome then none else some (.parse (.unknownOperator token))
  | .node .integer token | .node .lambda token | .node .variable token =>
    match Wire.decodeInteger token.body with
    | .ok _ => none
    | .error error => some (.codec error)
  | .node .boolean _ | .node .string _ | .node .conditional _ => none
  | .node (.unrecognized name) token => some (.parse (.unrecognizedRule name token))
  | .gap rule token index => some (.parse (.missingChild rule token index))

/-- The stop is a function with a numeral, for which an id is taken. -/
def takesId : Stop → Bool
  | .node .lambda token => (Wire.decodeInteger token.body).isOk
  | _ => false

theorem takesId_of_objection {stop : Stop} {error : ReadError}
    (objects : stop.objection? = some error) : stop.takesId = false := by
  cases stop with
  | gap => rfl
  | node rule token =>
    cases rule with
    | lambda =>
      rw [objection?] at objects
      rw [takesId]
      cases hnumeral : Wire.decodeInteger token.body with
      | ok n =>
        rw [hnumeral] at objects
        cases objects
      | error error => rfl
    | _ => rfl

end Stop

namespace ParseTree

/-- What holds of a tree if it holds of its children holds of every tree. -/
@[elab_as_elim]
theorem induction_children {P : ParseTree → Prop}
    (node : ∀ rule token children, (∀ child ∈ children, P child) → P (.node rule token children))
    (tree : ParseTree) : P tree :=
  @ParseTree.rec P (fun children => ∀ child ∈ children, P child) node nofun
    (fun _ _ hchild hrest => List.forall_mem_cons.2 ⟨hchild, hrest⟩) tree

mutual

/-- The stops of a tree, in the order of the text. -/
def stops : ParseTree → List Stop
  | .node rule token children => .node rule token :: stopsBelow rule token 0 rule.arity children

/-- The stops at `count` children of a node, of which the first is the child at `index`. -/
def stopsBelow (rule : Rule) (token : Token) (index : Nat) :
    (count : Nat) → List ParseTree → List Stop
  | 0, _ => []
  | _ + 1, [] => [.gap rule token index]
  | count + 1, child :: rest => child.stops ++ stopsBelow rule token (index + 1) count rest

end

theorem stopsBelow_zero (rule : Rule) (token : Token) (index : Nat) (children : List ParseTree) :
    stopsBelow rule token index 0 children = [] := by
  cases children <;> rfl

end ParseTree

/-! ### Computations that come to stops -/

section

variable {α β : Type} {stops stops' : List Stop} {before : List Int}

/-- How a computation ends that comes to the stops: after all of them, or at the first that is
objected to.  What it returns holds the ids `before`, which were taken earlier, and those that it
has taken itself, one for every function it came past. -/
inductive Ends (stops : List Stop) (before : List Int) (held : α → List Int) (ids : IdSupply) :
    EStateM.Result ReadError IdSupply α → Prop
  | ok {a : α} {taken : List Int} {rest : IdSupply} (fine : ∀ stop ∈ stops, stop.objection? = none)
    (yields : ids.Yields taken rest) (count : taken.length = stops.countP Stop.takesId)
    (holds : held a = before ++ taken) : Ends stops before held ids (.ok a rest)
  | error {passed later : List Stop} {stop : Stop} {error : ReadError} {rest : IdSupply}
    (split : stops = passed ++ stop :: later) (fine : ∀ stop ∈ passed, stop.objection? = none)
    (objects : stop.objection? = some error)
    (count : rest = ids.skip (passed.countP Stop.takesId)) :
    Ends stops before held ids (.error error rest)

/-- The computation comes to the stops in turn. -/
def Walks (stops : List Stop) (before : List Int) (held : α → List Int) (x : RenameM α) : Prop :=
  ∀ ids, Ends stops before held ids (x.run ids)

namespace Walks

variable {held : α → List Int} {held' : β → List Int}

/-- After the last child. -/
theorem done {a : α} {rule : Rule} {token : Token} {index : Nat} {children : List ParseTree}
    (holds : held a = before) :
    Walks (ParseTree.stopsBelow rule token index 0 children) before held (pure a) := by
  intro ids
  rw [ParseTree.stopsBelow_zero]
  exact .ok nofun (.nil ids) rfl (holds.trans (List.append_nil before).symm)

/-- One computation after another comes to the stops of both. -/
theorem bind {x : RenameM α} {f : α → RenameM β} (hx : Walks stops before held x)
    (hf : ∀ a, Walks stops' (held a) held' (f a)) :
    Walks (stops ++ stops') before held' (x >>= f) := by
  intro ids
  have first := hx ids
  rw [EStateM.run_bind]
  generalize x.run ids = result at first ⊢
  cases first with
  | error split fine objects count =>
    exact .error (by rw [split, List.append_assoc, List.cons_append]) fine objects count
  | @ok a taken middle fine yields count holds =>
    have second := hf a middle
    dsimp only
    generalize (f a).run middle = result at second ⊢
    cases second with
    | ok fine' yields' count' holds' =>
      refine .ok (List.forall_mem_append.2 ⟨fine, fine'⟩) (yields.append yields') ?_ ?_
      · rw [List.length_append, count, count', List.countP_append]
      · rw [holds', holds, List.append_assoc]
    | error split fine' objects count' =>
      refine .error (by rw [split, ← List.append_assoc]) (List.forall_mem_append.2 ⟨fine, fine'⟩)
        objects ?_
      rw [count', yields.rest_eq, IdSupply.skip_skip, count, List.countP_append]

/-- The ids that were taken earlier make no difference. -/
theorem after {x : RenameM α} (hx : Walks stops [] held x) (before : List Int) :
    Walks stops before (fun a => before ++ held a) x := by
  intro ids
  have ends := hx ids
  generalize x.run ids = result at ends ⊢
  cases ends with
  | ok fine yields count holds => exact .ok fine yields count (congrArg (before ++ ·) holds)
  | error split fine objects count => exact .error split fine objects count

/-- A stop that is objected to; what comes after it is not reached. -/
theorem refuse {stop : Stop} {error : ReadError} (objects : stop.objection? = some error) :
    Walks (stop :: stops) before held (throw error) :=
  fun _ => .error (List.nil_append _).symm nofun objects rfl

/-- A stop at which nothing is to be done. -/
theorem pass {stop : Stop} {x : RenameM α} (fine : stop.objection? = none)
    (takes : stop.takesId = false) (hx : Walks stops before held x) :
    Walks (stop :: stops) before held x := by
  intro ids
  have skips : ¬ stop.takesId = true := by simp [takes]
  have ends := hx ids
  generalize x.run ids = result at ends ⊢
  cases ends with
  | ok fine' yields count holds =>
    refine .ok (List.forall_mem_cons.2 ⟨fine, fine'⟩) yields ?_ holds
    rw [count, List.countP_cons_of_neg skips]
  | error split fine' objects count =>
    refine .error (by rw [split, List.cons_append]) (List.forall_mem_cons.2 ⟨fine, fine'⟩)
      objects ?_
    rw [count, List.countP_cons_of_neg skips]

/-- An integer or a variable: its numeral is read. -/
theorem numeral {rule : Rule} {token : Token} (reads : rule = .integer ∨ rule = .variable)
    {f : Int → RenameM α} (hf : ∀ n, Walks stops before held (f n)) :
    Walks (.node rule token :: stops) before held (readNumeral token.body >>= f) := by
  have objects : (Stop.node rule token).objection? =
      match Wire.decodeInteger token.body with
      | .ok _ => none
      | .error error => some (.codec error) := by
    rcases reads with rfl | rfl <;> rfl
  have takes : (Stop.node rule token).takesId = false := by rcases reads with rfl | rfl <;> rfl
  unfold readNumeral
  cases hnumeral : Wire.decodeInteger token.body with
  | ok n =>
    rw [hnumeral] at objects
    exact .pass objects takes (hf n)
  | error error =>
    rw [hnumeral] at objects
    exact .refuse objects

/-- A function: its numeral is read and an id is taken. -/
theorem function {token : Token} {f : Int → Int → RenameM α}
    (hf : ∀ n id, Walks stops (before ++ [id]) held (f n id)) :
    Walks (.node .lambda token :: stops) before held
      (readNumeral token.body >>= fun n => freshId >>= f n) := by
  unfold readNumeral
  cases hnumeral : Wire.decodeInteger token.body with
  | error error => exact .refuse (by simp only [Stop.objection?, hnumeral])
  | ok n =>
    have fine : (Stop.node .lambda token).objection? = none := by
      simp only [Stop.objection?, hnumeral]
    have takes : (Stop.node .lambda token).takesId = true := by
      rw [Stop.takesId, hnumeral]
      rfl
    intro ids
    have ends := hf n ids.current ids.advance
    show Ends _ before held ids ((f n ids.current).run ids.advance)
    generalize (f n ids.current).run ids.advance = result at ends ⊢
    cases ends with
    | ok fine' yields count holds =>
      refine .ok (List.forall_mem_cons.2 ⟨fine, fine'⟩) yields.cons ?_ ?_
      · rw [List.length_cons, count, List.countP_cons_of_pos takes]
      · rw [holds, List.append_assoc, List.singleton_append]
    | error split fine' objects count =>
      refine .error (by rw [split, List.cons_append]) (List.forall_mem_cons.2 ⟨fine, fine'⟩)
        objects ?_
      rw [count, IdSupply.skip_advance, List.countP_cons_of_pos takes]

end Walks

end

/-! ### Trees -/

namespace ParseTree

/-- Renaming a tree comes to the stops of the tree, and the expression holds its ids as binders.  The
induction is over the tree; a node is one stop, with the stops of each child after it. -/
theorem walks_rename (tree : ParseTree) (scope : Scope) :
    Walks tree.stops [] Expr.binders (tree.rename scope) := by
  induction tree using induction_children generalizing scope with
  | node rule token children ih =>
    cases rule with
    | boolean =>
      rw [rename]
      exact .pass rfl rfl (.done rfl)
    | integer =>
      rw [rename]
      exact .numeral (.inl rfl) fun n => .done rfl
    | string =>
      rw [rename]
      exact .pass rfl rfl (.done rfl)
    | unary =>
      rw [rename]
      cases hop : UnaryOp.ofCode? token.body with
      | none => exact .refuse (by simp [Stop.objection?, hop])
      | some op =>
        refine .pass (by simp [Stop.objection?, hop]) rfl ?_
        cases children with
        | nil => exact .refuse rfl
        | cons operand _ => exact .bind (ih operand (by simp) scope) fun _ => .done rfl
    | binary =>
      rw [rename]
      cases hop : BinaryOp.ofCode? token.body with
      | none => exact .refuse (by simp [Stop.objection?, hop])
      | some op =>
        refine .pass (by simp [Stop.objection?, hop]) rfl ?_
        cases children with
        | nil => exact .refuse rfl
        | cons left rest =>
          refine .bind (ih left (by simp) scope) fun l => ?_
          cases rest with
          | nil => exact .refuse rfl
          | cons right _ => exact .bind ((ih right (by simp) scope).after _) fun r => .done rfl
    | conditional =>
      refine .pass rfl rfl ?_
      cases children with
      | nil =>
        rw [rename]
        exact .refuse rfl
      | cons c rest =>
        rw [rename]
        refine .bind (ih c (by simp) scope) fun c' => ?_
        cases rest with
        | nil => exact .refuse rfl
        | cons t rest =>
          refine .bind ((ih t (by simp) scope).after _) fun t' => ?_
          cases rest with
          | nil => exact .refuse rfl
          | cons e _ => exact .bind ((ih e (by simp) scope).after _) fun e' => .done rfl
    | lambda =>
      rw [rename]
      refine .function fun n binder => ?_
      cases children with
      | nil => exact .refuse rfl
      | cons body _ => exact .bind ((ih body (by simp) _).after _) fun _ => .done rfl
    | «variable» =>
      rw [rename]
      exact .numeral (.inr rfl) fun n => .done rfl
    | unrecognized name =>
      rw [rename]
      exact .refuse rfl

end ParseTree

end Lambda94
