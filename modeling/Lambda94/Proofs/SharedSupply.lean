import Lambda94.Proofs.Stops

/-!
# One supply for many trees

Trees that are renamed one after the other share a supply of ids, which keeps what it has handed out
when a renaming fails.  Each of them takes one id for every function with a numeral that renaming
reaches, `ParseTree.idsTaken`, whether it succeeds or fails later on.  So the ids that are handed
out in the course of any sequence of renamings count down from the seed without a gap, and no id is
in two of the expressions: `binders_apart_of_shared_supply`.
-/

namespace Lambda94

/-! ### One renaming -/

namespace Stop

/-- The stops that renaming reaches: up to the first that is objected to, and with it. -/
def reached : List Stop → List Stop
  | [] => []
  | stop :: later => if stop.objection?.isSome then [stop] else stop :: reached later

theorem reached_of_fine {stops : List Stop} (fine : ∀ stop ∈ stops, stop.objection? = none) :
    reached stops = stops := by
  induction stops with
  | nil => rfl
  | cons stop later ih =>
    obtain ⟨hstop, hlater⟩ := List.forall_mem_cons.1 fine
    rw [reached, hstop, ih hlater]
    rfl

theorem reached_of_objection {passed : List Stop} {stop : Stop} {error : ReadError}
    (fine : ∀ stop ∈ passed, stop.objection? = none) (objects : stop.objection? = some error)
    (later : List Stop) : reached (passed ++ stop :: later) = passed ++ [stop] := by
  induction passed with
  | nil =>
    rw [List.nil_append, reached, objects]
    rfl
  | cons first passed ih =>
    obtain ⟨hfirst, hpassed⟩ := List.forall_mem_cons.1 fine
    rw [List.cons_append, reached, hfirst, ih hpassed]
    rfl

end Stop

namespace ParseTree

/-- The number of functions with a numeral that renaming reaches. -/
def idsTaken (tree : ParseTree) : Nat := (Stop.reached tree.stops).countP Stop.takesId

/-- Renaming any tree: it takes its ids, and either they are the binders of the expression, or the
last stop that it reaches is objected to. -/
inductive Settles (tree : ParseTree) (ids : IdSupply) :
    EStateM.Result ReadError IdSupply Expr → Prop
  | ok {expr : Expr} (binders : expr.binders = countdown ids.current tree.idsTaken) :
    Settles tree ids (.ok expr (ids.skip tree.idsTaken))
  | error {stop : Stop} {error : ReadError}
    (last : (Stop.reached tree.stops).getLast? = some stop)
    (objects : stop.objection? = some error) :
    Settles tree ids (.error error (ids.skip tree.idsTaken))

theorem settles_rename (tree : ParseTree) (scope : Scope) (ids : IdSupply) :
    tree.Settles ids ((tree.rename scope).run ids) := by
  have ends := tree.walks_rename scope ids
  generalize (tree.rename scope).run ids = result at ends ⊢
  cases ends with
  | @ok expr taken rest fine yields count holds =>
    have total : taken.length = tree.idsTaken := by
      rw [idsTaken, Stop.reached_of_fine fine, count]
    obtain ⟨htaken, rfl⟩ := yields
    rw [total] at htaken ⊢
    exact .ok (holds.trans htaken)
  | @error passed later stop error rest split fine objects count =>
    have reached := Stop.reached_of_objection fine objects later
    rw [← split] at reached
    have total : tree.idsTaken = passed.countP Stop.takesId := by
      rw [idsTaken, reached, List.countP_append, List.countP_singleton,
        Stop.takesId_of_objection objects]
      rfl
    rw [count, ← total]
    exact .error (by rw [reached, List.getLast?_concat]) objects

end ParseTree

/-! ### Many renamings -/

/-- A tree that is renamed in a scope, with the supply as it is found. -/
structure RenameCall where
  tree : ParseTree
  scope : Scope
  before : IdSupply

namespace RenameCall

/-- What comes of the call. -/
def result (call : RenameCall) : EStateM.Result ReadError IdSupply Expr :=
  (call.tree.rename call.scope).run call.before

/-- The supply as the call leaves it. -/
def after (call : RenameCall) : IdSupply :=
  match call.result with
  | .ok _ rest | .error _ rest => rest

/-- The binders of the expression that the call returns, if it returns one. -/
def binders (call : RenameCall) : List Int :=
  match call.result with
  | .ok expr _ => expr.binders
  | .error _ _ => []

theorem settles (call : RenameCall) : call.tree.Settles call.before call.result :=
  call.tree.settles_rename call.scope call.before

theorem after_eq (call : RenameCall) : call.after = call.before.skip call.tree.idsTaken := by
  have settles := call.settles
  unfold after
  generalize call.result = result at settles ⊢
  cases settles <;> rfl

theorem binders_sublist (call : RenameCall) :
    call.binders.Sublist (countdown call.before.current call.tree.idsTaken) := by
  have settles := call.settles
  unfold binders
  generalize call.result = result at settles ⊢
  cases settles with
  | ok binders =>
    dsimp only
    rw [binders]
  | error => exact List.nil_sublist _

end RenameCall

/-- Renames trees in their scopes, one after the other, all with ids from one supply. -/
def renameEach (ids : IdSupply) : List (ParseTree × Scope) → List RenameCall
  | [] => []
  | (tree, scope) :: later =>
    let call : RenameCall := ⟨tree, scope, ids⟩
    call :: renameEach call.after later

/-- The number of ids that are handed out in the course of the calls. -/
def handedOut (calls : List RenameCall) : Nat := (calls.map fun call => call.tree.idsTaken).sum

theorem handedOut_cons (call : RenameCall) (calls : List RenameCall) :
    handedOut (call :: calls) = call.tree.idsTaken + handedOut calls := by
  rw [handedOut, List.map_cons, List.sum_cons, handedOut]

/-- The binders that are returned are among the ids that count down from the first one. -/
theorem binders_renameEach_sublist (ids : IdSupply) (trees : List (ParseTree × Scope)) :
    ((renameEach ids trees).flatMap RenameCall.binders).Sublist
      (countdown ids.current (handedOut (renameEach ids trees))) := by
  induction trees generalizing ids with
  | nil => exact List.nil_sublist _
  | cons first trees ih =>
    obtain ⟨tree, scope⟩ := first
    have hfirst := (RenameCall.mk tree scope ids).binders_sublist
    have hlater := ih (RenameCall.mk tree scope ids).after
    rw [RenameCall.after_eq, IdSupply.current_skip] at hlater
    rw [renameEach, List.flatMap_cons, handedOut_cons, countdown_add, RenameCall.after_eq]
    exact hfirst.append hlater

/-- After each call the supply has moved by as many ids as have been handed out until then. -/
theorem after_eq_of_renameEach {ids : IdSupply} {trees : List (ParseTree × Scope)}
    {earlier later : List RenameCall} {call : RenameCall}
    (h : renameEach ids trees = earlier ++ call :: later) :
    call.after = ids.skip (handedOut (earlier ++ [call])) := by
  induction trees generalizing ids earlier with
  | nil => simp [renameEach] at h
  | cons first trees ih =>
    obtain ⟨tree, scope⟩ := first
    rw [renameEach] at h
    cases earlier with
    | nil =>
      obtain ⟨rfl, -⟩ := List.cons.inj h
      rw [RenameCall.after_eq, List.nil_append, handedOut_cons]
      rfl
    | cons other earlier =>
      obtain ⟨rfl, hlater⟩ := List.cons.inj h
      rw [ih hlater, RenameCall.after_eq, IdSupply.skip_skip, List.cons_append, handedOut_cons]

/-! ### Main result -/

/-- Renaming any trees in any scopes, one after the other, with one supply, which starts at any
seed: no two functions in the expressions that are returned have the same binder; the binders of
each of them count down without a gap in the order of the text; a renaming that fails, at the last
stop that it reaches, has taken one id for every function with a numeral that it has reached; and
the supply has always handed out what has been taken in all. -/
theorem binders_apart_of_shared_supply (seed : Int) (trees : List (ParseTree × Scope)) :
    ((renameEach (.ofSeed seed) trees).flatMap RenameCall.binders).Nodup ∧
    (∀ call ∈ renameEach (.ofSeed seed) trees,
      (∀ expr rest, call.result = .ok expr rest →
        expr.binders = countdown call.before.current call.tree.idsTaken ∧
        rest = call.before.skip call.tree.idsTaken) ∧
      ∀ error rest, call.result = .error error rest →
        (∃ stop, (Stop.reached call.tree.stops).getLast? = some stop ∧
          stop.objection? = some error) ∧
        rest = call.before.skip call.tree.idsTaken) ∧
    ∀ earlier call later, renameEach (.ofSeed seed) trees = earlier ++ call :: later →
      call.after.used = handedOut (earlier ++ [call]) ∧
      call.after.current = seed - handedOut (earlier ++ [call]) := by
  refine ⟨?_, fun call _ => ⟨fun expr rest hresult => ?_, fun error rest hresult => ?_⟩,
    fun earlier call later h => ?_⟩
  · exact (nodup_countdown _ _).sublist (binders_renameEach_sublist _ _)
  · have settles := call.settles
    rw [hresult] at settles
    cases settles with
    | ok binders => exact ⟨binders, rfl⟩
  · have settles := call.settles
    rw [hresult] at settles
    cases settles with
    | error last objects => exact ⟨⟨_, last, objects⟩, rfl⟩
  · rw [after_eq_of_renameEach h, IdSupply.current_skip]
    refine ⟨Nat.zero_add _, ?_⟩
    rw [IdSupply.current, IdSupply.ofSeed, Nat.cast_zero, Int.sub_zero]

/-- Two nested functions; an application of a function without an argument, which fails after the
function has taken an id; and a function with a child too many, in a scope of its own. -/
theorem binders_apart_of_shared_supply_with_failure :
    ∃ trees first failed last, renameEach (.ofSeed 5) trees = [first, failed, last] ∧
      first.binders = [5, 4] ∧
      failed.result = .error (.parse (.missingChild .binary (.ofLiteral "B$" 0) 1)) ⟨5, 3⟩ ∧
      last.result = .ok (.lam 2 (.var 7)) ⟨5, 4⟩ ∧
      (first.binders ++ (failed.binders ++ (last.binders ++ []))).Nodup ∧
      (∃ stop, (Stop.reached failed.tree.stops).getLast? = some stop ∧
        stop.objection? = some (.parse (.missingChild .binary (.ofLiteral "B$" 0) 1))) ∧
      failed.tree.idsTaken = 1 ∧ failed.after.used = handedOut [first, failed] ∧
      last.after.current = 5 - handedOut [first, failed, last] := by
  let first : ParseTree :=
    .node .lambda (.ofLiteral "L!" 0)
      [.node .lambda (.ofLiteral "L!" 1) [.node .variable (.ofLiteral "v!" 2) []]]
  let failed : ParseTree :=
    .node .binary (.ofLiteral "B$" 0)
      [.node .lambda (.ofLiteral "L!" 1) [.node .boolean (.ofLiteral "T" 2) []]]
  let last : ParseTree :=
    .node .lambda (.ofLiteral "L!" 0)
      [.node .variable (.ofLiteral "v\"" 1) [], .node .boolean (.ofLiteral "T" 2) []]
  let trees := [(first, .empty), (failed, .empty), (last, Scope.empty.bind 1 7)]
  have calls : renameEach (.ofSeed 5) trees =
      [⟨first, .empty, ⟨5, 0⟩⟩, ⟨failed, .empty, ⟨5, 2⟩⟩,
        ⟨last, Scope.empty.bind 1 7, ⟨5, 3⟩⟩] := by
    cbv
  obtain ⟨distinct, each, total⟩ := binders_apart_of_shared_supply 5 trees
  rw [calls] at distinct each total
  have fails : (RenameCall.mk failed .empty ⟨5, 2⟩).result =
      .error (.parse (.missingChild .binary (.ofLiteral "B$" 0) 1)) ⟨5, 3⟩ := by cbv
  exact ⟨trees, _, _, _, calls, by cbv, fails, by cbv, distinct, ((each _ (by simp)).2 _ _ fails).1,
    by cbv, (total [_] _ [_] rfl).1, (total [_, _] _ [] rfl).2⟩

end Lambda94
