import Lambda94.Proofs.Position
import Lambda94.Proofs.SearchTree
import Lambda94.Proofs.WellFormed
import Lambda94.Program
import Mathlib

/-!
# Renaming is correct

An expression that renaming makes of a well-formed parse tree has the nodes of the tree, its binders
count down from the supply in the order of the text, and each of its variables carries the binder of
the nearest function above it that was written with its numeral: `rename_resolves_nearest`.  Only a
numeral without such a function is looked up in the scope that was given from outside.
-/

namespace Lambda94

/-! ### Handing out ids -/

/-- `count` ids from `start` on, in the order in which they are handed out. -/
def countdown (start : Int) (count : Nat) : List Int :=
  (List.range count).map fun (i : Nat) => start - i

@[simp] theorem length_countdown (start : Int) (count : Nat) :
    (countdown start count).length = count := by
  rw [countdown, List.length_map, List.length_range]

theorem countdown_succ (start : Int) (count : Nat) :
    countdown start (count + 1) = start :: countdown (start - 1) count := by
  rw [countdown, List.range_succ_eq_map, List.map_cons, List.map_map]
  refine congrArg₂ List.cons (by simp) (List.map_congr_left fun i _ => ?_)
  simp only [Function.comp_apply]
  omega

theorem countdown_add (start : Int) (m n : Nat) :
    countdown start (m + n) = countdown start m ++ countdown (start - m) n := by
  rw [countdown, List.range_add, List.map_append, List.map_map]
  refine congrArg (_ ++ ·) (List.map_congr_left fun i _ => ?_)
  simp only [Function.comp_apply]
  omega

theorem mem_countdown_iff {start id : Int} {count : Nat} :
    id ∈ countdown start count ↔ start - count < id ∧ id ≤ start := by
  simp only [countdown, List.mem_map, List.mem_range]
  constructor
  · rintro ⟨i, hi, rfl⟩
    omega
  · exact fun h => ⟨(start - id).toNat, by omega, by omega⟩

theorem nodup_countdown (start : Int) (count : Nat) : (countdown start count).Nodup :=
  List.nodup_range.map fun i j (h : start - (i : Int) = start - j) => by omega

namespace IdSupply

/-- The supply after `count` more ids. -/
def skip (ids : IdSupply) (count : Nat) : IdSupply := { ids with used := ids.used + count }

@[simp] theorem current_skip (ids : IdSupply) (count : Nat) :
    (ids.skip count).current = ids.current - count := by
  simp only [skip, current]
  omega

theorem skip_skip (ids : IdSupply) (m n : Nat) : (ids.skip m).skip n = ids.skip (m + n) := by
  simp only [skip, Nat.add_assoc]

theorem current_advance (ids : IdSupply) : ids.advance.current = ids.current - 1 :=
  current_skip ids 1

theorem skip_advance (ids : IdSupply) (count : Nat) :
    ids.advance.skip count = ids.skip (count + 1) := by
  simp only [skip, advance, Nat.add_assoc, Nat.add_comm 1]

/-- Handing out the ids `taken` in turn leads from the supply `ids` to the supply `rest`. -/
structure Yields (ids : IdSupply) (taken : List Int) (rest : IdSupply) : Prop where
  taken_eq : taken = countdown ids.current taken.length
  rest_eq : rest = ids.skip taken.length

theorem Yields.nil (ids : IdSupply) : ids.Yields [] ids := ⟨rfl, rfl⟩

theorem Yields.cons {ids rest : IdSupply} {taken : List Int} (h : ids.advance.Yields taken rest) :
    ids.Yields (ids.current :: taken) rest := by
  refine ⟨?_, ?_⟩
  · rw [List.length_cons, countdown_succ, ← current_advance, ← h.taken_eq]
  · rw [h.rest_eq, skip_advance, List.length_cons]

theorem Yields.append {ids middle rest : IdSupply} {taken taken' : List Int}
    (h : ids.Yields taken middle) (h' : middle.Yields taken' rest) :
    ids.Yields (taken ++ taken') rest := by
  obtain ⟨htaken, rfl⟩ := h
  obtain ⟨htaken', rfl⟩ := h'
  refine ⟨?_, ?_⟩
  · rw [current_skip] at htaken'
    rw [List.length_append, countdown_add, ← htaken, ← htaken']
  · rw [skip_skip, List.length_append]

end IdSupply

/-! ### What renaming is to do -/

/-- The binder that a numeral refers to; a numeral that is not bound stands for itself. -/
def Scope.resolve (scope : Scope) (numeral : Int) : Int := (scope.lookup? numeral).getD numeral

namespace ParseTree

/-- The outermost node of a tree says the same as that of an expression: the operator or the decoded
literal is the same, and so is the number of children. -/
inductive Matches : ParseTree → Expr → Prop
  | boolean (token : Token) :
    Matches (.node .boolean token []) (.lit (.bool (token.indicator == "T")))
  | integer {token : Token} {n : Int} (numeral : Wire.decodeInteger token.body = .ok n) :
    Matches (.node .integer token []) (.lit (.int n))
  | string (token : Token) :
    Matches (.node .string token []) (.lit (.str (Wire.decodeString token.body)))
  | unary {token : Token} {op : UnaryOp} (code : token.body = Text.ofChar op.code)
    (tree : ParseTree) (operand : Expr) :
    Matches (.node .unary token [tree]) (.unary op operand)
  | binary {token : Token} {op : BinaryOp} (code : token.body = Text.ofChar op.code)
    (tree₁ tree₂ : ParseTree) (left right : Expr) :
    Matches (.node .binary token [tree₁, tree₂]) (.binary op left right)
  | conditional (token : Token) (tree₁ tree₂ tree₃ : ParseTree) (c t e : Expr) :
    Matches (.node .conditional token [tree₁, tree₂, tree₃]) (.cond c t e)
  | lambda {token : Token} {n : Int} (numeral : Wire.decodeInteger token.body = .ok n)
    (tree : ParseTree) (binder : Int) (body : Expr) :
    Matches (.node .lambda token [tree]) (.lam binder body)
  | variable {token : Token} {n : Int} (numeral : Wire.decodeInteger token.body = .ok n)
    (id : Int) : Matches (.node .variable token []) (.var id)

/-- The expression is the tree with its numerals resolved: it has the nodes of the tree, a variable
carries the binder of the nearest function above it that was written with its numeral, and a free
variable what `resolve` makes of its numeral. -/
structure Renamed (resolve : Int → Int) (tree : ParseTree) (expr : Expr) : Prop where
  shape : ∀ path, Option.Rel Matches (tree.at? path) (expr.at? path)
  bound : ∀ path numeral outer, tree.RefersAt path numeral →
    tree.NearestBinder path numeral outer →
    ∃ binder body, expr.at? outer = some (.lam binder body) ∧ expr.at? path = some (.var binder)
  free : ∀ path numeral, tree.FreeAt path numeral →
    expr.at? path = some (.var (resolve numeral))

/-- A variable of the expression stands for a variable of the tree. -/
theorem Renamed.refersAt {resolve : Int → Int} {tree : ParseTree} {expr : Expr}
    (h : tree.Renamed resolve expr) {path : Path} {id : Int}
    (hat : expr.at? path = some (.var id)) : ∃ numeral, tree.RefersAt path numeral := by
  have hshape := h.shape path
  rw [hat] at hshape
  cases htree : tree.at? path with
  | none =>
    rw [htree] at hshape
    cases hshape
  | some node =>
    rw [htree] at hshape
    cases hshape with
    | some hmatches =>
      cases hmatches with
      | «variable» numeral => exact ⟨_, _, htree, rfl, numeral⟩

/-- A node is renamed if its head is and its children are, in the scope inside the node. -/
theorem Renamed.of_children {resolve inner : Int → Int} {tree : ParseTree} {expr : Expr}
    (head : tree.Matches expr)
    (refers : ∀ numeral, tree.Refers numeral → expr = .var (resolve numeral))
    (binds : ∀ numeral, tree.Binds numeral → ∃ body, expr = .lam (inner numeral) body)
    (passes : ∀ numeral, ¬ tree.Binds numeral → inner numeral = resolve numeral)
    (below : List.Forall₂ (Renamed inner) tree.children expr.children) :
    tree.Renamed resolve expr := by
  obtain ⟨hlength, hget⟩ := List.forall₂_iff_get.1 below
  have hchild : ∀ {i : Nat} {child : ParseTree}, tree.children[i]? = some child →
      ∃ child', expr.children[i]? = some child' ∧ child.Renamed inner child' := by
    intro i child h
    obtain ⟨hi, rfl⟩ := List.getElem?_eq_some_iff.1 h
    have hi' : i < expr.children.length := hlength ▸ hi
    exact ⟨_, List.getElem?_eq_getElem hi', hget i hi hi'⟩
  refine ⟨?_, ?_, ?_⟩
  · rintro (_ | ⟨i, path⟩)
    · exact .some head
    · cases h : tree.children[i]? with
      | none =>
        have h' : expr.children[i]? = none := by
          rw [List.getElem?_eq_none_iff] at h ⊢
          exact hlength ▸ h
        simp only [at?, Expr.at?, h, h', Option.bind_none]
        exact .none
      | some child =>
        obtain ⟨child', h', hrenamed⟩ := hchild h
        rw [at?_cons h, Expr.at?_cons h']
        exact hrenamed.shape path
  · rintro (_ | ⟨i, path⟩) numeral outer ⟨node, hat, href⟩ hnearest
    · exact absurd hnearest.above (not_above_nil outer)
    · obtain ⟨child, h, hnode⟩ := exists_child_of_at?_cons hat
      obtain ⟨child', h', hrenamed⟩ := hchild h
      rcases outer with _ | ⟨j, outer⟩
      · obtain ⟨hroot, hbelow⟩ := (nearestBinder_cons_nil h).1 hnearest
        obtain ⟨body, rfl⟩ := binds numeral hroot
        refine ⟨inner numeral, body, rfl, ?_⟩
        rw [Expr.at?_cons h']
        exact hrenamed.free path numeral ⟨⟨node, hnode, href⟩, hbelow⟩
      · obtain ⟨rfl, -⟩ := above_cons_cons_iff.1 hnearest.above
        rw [Expr.at?_cons h', Expr.at?_cons h']
        exact hrenamed.bound path numeral outer ⟨node, hnode, href⟩
          ((nearestBinder_cons_cons h).1 hnearest)
  · rintro (_ | ⟨i, path⟩) numeral hfree
    · rw [Expr.at?_nil, refers numeral (refersAt_nil.1 hfree.1)]
    · obtain ⟨node, hat, -⟩ := hfree.1
      obtain ⟨child, h, -⟩ := exists_child_of_at?_cons hat
      obtain ⟨child', h', hrenamed⟩ := hchild h
      obtain ⟨hfree, hroot⟩ := (freeAt_cons h).1 hfree
      rw [Expr.at?_cons h', hrenamed.free path numeral hfree, passes numeral hroot]

/-! ### What a run of renaming does -/

theorem readNumeral_eq_ok {body : Text} {n : Int} {ids ids' : IdSupply}
    (h : (readNumeral body).run ids = .ok n ids') :
    Wire.decodeInteger body = .ok n ∧ ids' = ids := by
  unfold readNumeral at h
  cases hbody : Wire.decodeInteger body with
  | error error =>
    rw [hbody] at h
    cases h
  | ok m =>
    rw [hbody] at h
    cases h
    exact ⟨rfl, rfl⟩

/-- The expression is what `tree` is renamed to in `scope`, and its binders lead from the supply
`ids` to the supply `rest`. -/
structure RenamedFrom (scope : Scope) (ids : IdSupply) (tree : ParseTree) (expr : Expr)
    (rest : IdSupply) : Prop where
  renamed : tree.Renamed scope.resolve expr
  yields : ids.Yields expr.binders rest

/-- A node that is neither a function nor a variable is renamed if its head is and its children are,
in the scope of the node. -/
theorem Renamed.of_children_same {resolve : Int → Int} {tree : ParseTree} {expr : Expr}
    (head : tree.Matches expr) (notLambda : tree.rule ≠ .lambda)
    (notVariable : tree.rule ≠ .variable)
    (below : List.Forall₂ (Renamed resolve) tree.children expr.children) :
    tree.Renamed resolve expr :=
  .of_children head (fun _ h => absurd h.1 notVariable) (fun _ h => absurd h.1 notLambda)
    (fun _ _ => rfl) below

section

variable {scope : Scope} {ids ids₁ ids₂ rest : IdSupply} {token : Token}
  {tree₁ tree₂ tree₃ : ParseTree} {expr₁ expr₂ expr₃ : Expr}

theorem RenamedFrom.unary {op : UnaryOp} (code : token.body = Text.ofChar op.code)
    (h : RenamedFrom scope ids tree₁ expr₁ rest) :
    RenamedFrom scope ids (.node .unary token [tree₁]) (.unary op expr₁) rest where
  renamed := .of_children_same (.unary code _ _) nofun nofun (.cons h.renamed .nil)
  yields := h.yields

theorem RenamedFrom.binary {op : BinaryOp} (code : token.body = Text.ofChar op.code)
    (h₁ : RenamedFrom scope ids tree₁ expr₁ ids₁) (h₂ : RenamedFrom scope ids₁ tree₂ expr₂ rest) :
    RenamedFrom scope ids (.node .binary token [tree₁, tree₂]) (.binary op expr₁ expr₂) rest where
  renamed := .of_children_same (.binary code _ _ _ _) nofun nofun
    (.cons h₁.renamed (.cons h₂.renamed .nil))
  yields := h₁.yields.append h₂.yields

theorem RenamedFrom.conditional (h₁ : RenamedFrom scope ids tree₁ expr₁ ids₁)
    (h₂ : RenamedFrom scope ids₁ tree₂ expr₂ ids₂) (h₃ : RenamedFrom scope ids₂ tree₃ expr₃ rest) :
    RenamedFrom scope ids (.node .conditional token [tree₁, tree₂, tree₃])
      (.cond expr₁ expr₂ expr₃) rest where
  renamed := .of_children_same (.conditional _ _ _ _ _ _ _) nofun nofun
    (.cons h₁.renamed (.cons h₂.renamed (.cons h₃.renamed .nil)))
  yields := (h₁.yields.append h₂.yields).append h₃.yields

/-- The body of a function sees the binder of the function; the binder comes before those of the
body. -/
theorem RenamedFrom.lambda (ordered : scope.Ordered) {n : Int}
    (numeral : Wire.decodeInteger token.body = .ok n)
    (h : RenamedFrom (scope.bind n ids.current) ids.advance tree₁ expr₁ rest) :
    RenamedFrom scope ids (.node .lambda token [tree₁]) (.lam ids.current expr₁) rest := by
  have hresolve : ∀ m, (scope.bind n ids.current).resolve m =
      if m = n then ids.current else scope.resolve m := by
    intro m
    rw [Scope.resolve, Scope.lookup?_bind ordered]
    split_ifs <;> rfl
  refine ⟨.of_children (.lambda numeral _ _ _) nofun ?_ ?_ (.cons h.renamed .nil), h.yields.cons⟩
  · rintro m ⟨-, hm⟩
    obtain rfl : n = m := Except.ok.inj (numeral.symm.trans hm)
    exact ⟨expr₁, by rw [hresolve, if_pos rfl]⟩
  · intro m hm
    rw [hresolve, if_neg]
    rintro rfl
    exact hm ⟨rfl, numeral⟩

theorem RenamedFrom.variable {n : Int} (numeral : Wire.decodeInteger token.body = .ok n) :
    RenamedFrom scope ids (.node .variable token []) (.var (scope.resolve n)) ids := by
  refine ⟨.of_children (.variable numeral _) ?_ nofun (fun _ _ => rfl) .nil, .nil ids⟩
  rintro m ⟨-, hm⟩
  obtain rfl : n = m := Except.ok.inj (numeral.symm.trans hm)
  rfl

end

/-- The induction is over the tree; a node is taken apart as its rule tells, and the case lemmas
above put the results for its children together. -/
theorem renamedFrom_of_run {tree : ParseTree} (wellFormed : tree.WellFormed) {scope : Scope}
    (ordered : scope.Ordered) {ids rest : IdSupply} {expr : Expr}
    (run : (tree.rename scope).run ids = .ok expr rest) : RenamedFrom scope ids tree expr rest := by
  induction wellFormed generalizing scope ids rest expr with
  | @node rule token children body shape below ih =>
    have arity := (WellFormed.node shape below).length_children
    have known := (WellFormed.node shape below).rule_mem_all
    cases rule with
    | boolean =>
      obtain rfl := List.length_eq_zero_iff.1 arity
      rw [rename] at run
      cases run
      exact ⟨.of_children_same (.boolean token) nofun nofun .nil, .nil ids⟩
    | integer =>
      obtain rfl := List.length_eq_zero_iff.1 arity
      rw [rename] at run
      obtain ⟨n, ids', hn, hrest⟩ := run_bind_eq_ok_iff.1 run
      obtain ⟨numeral, rfl⟩ := readNumeral_eq_ok hn
      cases hrest
      exact ⟨.of_children_same (.integer numeral) nofun nofun .nil, .nil _⟩
    | string =>
      obtain rfl := List.length_eq_zero_iff.1 arity
      rw [rename] at run
      cases run
      exact ⟨.of_children_same (.string token) nofun nofun .nil, .nil ids⟩
    | unary =>
      obtain ⟨tree₁, rfl⟩ := List.length_eq_one_iff.1 arity
      rw [rename] at run
      cases hop : UnaryOp.ofCode? token.body with
      | none =>
        rw [hop] at run
        cases run
      | some op =>
        rw [hop] at run
        obtain ⟨expr₁, ids₁, run₁, run⟩ := run_bind_eq_ok_iff.1 run
        cases run
        exact (ih tree₁ (by simp) ordered run₁).unary (UnaryOp.ofCode?_eq_some_iff.1 hop)
    | binary =>
      obtain ⟨tree₁, tree₂, rfl⟩ := List.length_eq_two.1 arity
      rw [rename] at run
      cases hop : BinaryOp.ofCode? token.body with
      | none =>
        rw [hop] at run
        cases run
      | some op =>
        rw [hop] at run
        obtain ⟨expr₁, ids₁, run₁, run⟩ := run_bind_eq_ok_iff.1 run
        obtain ⟨expr₂, ids₂, run₂, run⟩ := run_bind_eq_ok_iff.1 run
        cases run
        exact .binary (BinaryOp.ofCode?_eq_some_iff.1 hop) (ih tree₁ (by simp) ordered run₁)
          (ih tree₂ (by simp) ordered run₂)
    | conditional =>
      obtain ⟨tree₁, tree₂, tree₃, rfl⟩ := List.length_eq_three.1 arity
      rw [rename] at run
      obtain ⟨expr₁, ids₁, run₁, run⟩ := run_bind_eq_ok_iff.1 run
      obtain ⟨expr₂, ids₂, run₂, run⟩ := run_bind_eq_ok_iff.1 run
      obtain ⟨expr₃, ids₃, run₃, run⟩ := run_bind_eq_ok_iff.1 run
      cases run
      exact .conditional (ih tree₁ (by simp) ordered run₁) (ih tree₂ (by simp) ordered run₂)
        (ih tree₃ (by simp) ordered run₃)
    | lambda =>
      obtain ⟨tree₁, rfl⟩ := List.length_eq_one_iff.1 arity
      rw [rename] at run
      obtain ⟨n, ids', hn, hrest⟩ := run_bind_eq_ok_iff.1 run
      obtain ⟨numeral, rfl⟩ := readNumeral_eq_ok hn
      obtain ⟨binder, ids₁, hfresh, hbody⟩ := run_bind_eq_ok_iff.1 hrest
      cases hfresh
      obtain ⟨expr₁, ids₂, run₁, hlam⟩ := run_bind_eq_ok_iff.1 hbody
      cases hlam
      exact .lambda ordered numeral (ih tree₁ (by simp) (ordered.insert n _) run₁)
    | «variable» =>
      obtain rfl := List.length_eq_zero_iff.1 arity
      rw [rename] at run
      obtain ⟨n, ids', hn, hrest⟩ := run_bind_eq_ok_iff.1 run
      obtain ⟨numeral, rfl⟩ := readNumeral_eq_ok hn
      cases hrest
      exact .variable numeral
    | unrecognized name => simp [Rule.all] at known

end ParseTree

/-! ### Main results -/

/-- Renaming a tree that was read from tokens, in the scope of any list of bindings and with a
supply that stands at any id: the expression has the nodes of the tree, its binders count down from
that id in the order of the text and leave the supply after the last of them, and every variable
carries the binder of the nearest function above it that was written with its numeral, or else what
the numeral was last bound to outside, or else the numeral. -/
theorem rename_resolves_nearest {tokens : List Token} {tree : ParseTree}
    (read : ParseTree.ofTokens tokens = .ok tree) {bindings : List (Int × Int)}
    {ids rest : IdSupply} {expr : Expr}
    (run : (tree.rename (.ofBindings bindings)).run ids = .ok expr rest) :
    tree.Renamed (fun numeral => (bindings.reverse.lookup numeral).getD numeral) expr ∧
      expr.binders = countdown ids.current expr.binders.length ∧
      rest.current = ids.current - expr.binders.length := by
  have h := ParseTree.renamedFrom_of_run (ParseTree.wellFormed_of_ofTokens read)
    (Scope.ordered_ofBindings bindings) run
  have hresolve : (Scope.ofBindings bindings).resolve =
      fun numeral => (bindings.reverse.lookup numeral).getD numeral := by
    funext numeral
    rw [Scope.resolve, Scope.lookup?_ofBindings]
  refine ⟨hresolve ▸ h.renamed, h.yields.taken_eq, ?_⟩
  rw [h.yields.rest_eq, IdSupply.current_skip]

/-- Two functions and two variables of the numeral `0`: the inner function shadows the outer one,
and the last variable is outside both. -/
theorem rename_resolves_nearest_shadowed :
    ∃ tree expr rest, ParseTree.ofTokens (Token.scan "B$ L! B$ L! v! v\" v!") = .ok tree ∧
      (tree.rename (.ofBindings [(0, 7), (1, 5), (0, 9)])).run .initial = .ok expr rest ∧
      expr = .app (.lam (-1) (.app (.lam (-2) (.var (-2))) (.var 5))) (.var 9) ∧
      tree.Renamed (fun n => ([(0, 9), (1, 5), (0, 7)].lookup n).getD n) expr ∧
      expr.binders = countdown (-1) 2 ∧ rest.current = -3 := by
  let tree : ParseTree :=
    .node .binary (.ofLiteral "B$" 0)
      [.node .lambda (.ofLiteral "L!" 1)
        [.node .binary (.ofLiteral "B$" 2)
          [.node .lambda (.ofLiteral "L!" 3) [.node .variable (.ofLiteral "v!" 4) []],
            .node .variable (.ofLiteral "v\"" 5) []]],
        .node .variable (.ofLiteral "v!" 6) []]
  have read : ParseTree.ofTokens (Token.scan "B$ L! B$ L! v! v\" v!") = .ok tree := by cbv
  have run : (tree.rename (.ofBindings [(0, 7), (1, 5), (0, 9)])).run .initial =
      .ok (.app (.lam (-1) (.app (.lam (-2) (.var (-2))) (.var 5))) (.var 9)) ⟨-1, 2⟩ := by cbv
  exact ⟨tree, _, _, read, run, rfl, rename_resolves_nearest read run⟩

/-- What reading a program finds out about it: the expression is its parse tree with every numeral
resolved, and the binders count down from `-1`. -/
theorem Program.renamed_of_ofText {text : Text} {program : Program}
    (read : Program.ofText text = .ok program) :
    ∃ tree, ParseTree.ofText text = .ok tree ∧ tree.Renamed id program.expr ∧
      program.expr.binders = countdown (-1) program.binderCount := by
  unfold Program.ofText at read
  cases htree : ParseTree.ofText text with
  | error error =>
    rw [htree] at read
    cases read
  | ok tree =>
    rw [htree] at read
    dsimp only at read
    split at read
    next expr ids run =>
      cases read
      have h := ParseTree.renamedFrom_of_run (ParseTree.wellFormed_of_ofTokens htree)
        Avl.ordered_empty run
      have hused : ids.used = expr.binders.length := by
        rw [h.yields.rest_eq]
        exact Nat.zero_add _
      exact ⟨tree, rfl, h.renamed, hused ▸ h.yields.taken_eq⟩
    next => cases read

end Lambda94
