import Lambda94.Proofs.JsonSchema
import Lambda94.Proofs.Outcome

/-!
# Reading against the schema

What the readers of documents give back: what a part of a document denotes, or a report of its
first flaw (`Shape.Reads`).  Both are determined by the document, so that the reader of expressions
succeeds exactly on the documents that denote one, and fails exactly with the report of the first
flaw: `Expr.ofJson_eq_ok_iff`, `Expr.ofJson_eq_error_iff`.
-/

namespace Lambda94

/-! ### Outcomes of readers -/

namespace Shape

/-- The outcome of reading a place as a shape is what is there, or a report of its first flaw. -/
def Reads (shape : Shape) (place : Option Json) (path : List String) :
    Except SchemaError shape.Denoted → Prop
  | .ok denoted => ∃ json, place = some json ∧ shape.Means json denoted
  | .error error => ∃ found flaw, FirstFlaw shape place path found flaw ∧ error = flaw.report found

/-- The outcome of reading the last parts of a node is what the node denotes, or a report of the
first flaw in these parts. -/
def ReadsParts (shape : Shape) (json : Json) (fields : List (String × Shape))
    (path : List String) : Except SchemaError shape.Denoted → Prop
  | .ok denoted => shape.Means json denoted
  | .error error => ∃ before name inner after found flaw,
      fields = before ++ (name, inner) :: after ∧
        (∀ field ∈ before, field.2.Holds (json.field? field.1)) ∧
        FirstFlaw inner (json.field? name) (path ++ [name]) found flaw ∧ error = flaw.report found

variable {shape inner : Shape} {place : Option Json} {json : Json} {path : List String}
  {kind : Text} {name : String} {fields : List (String × Shape)}

theorem Reads.leaf (isLeaf : shape.isNode = false) (other : ¬shape.Holds place) :
    shape.Reads place path (invalidAt path shape.otherwise) :=
  ⟨path, _, .here (.leaf isLeaf other), rfl⟩

theorem Reads.noObject (isNode : shape.isNode = true) (other : place.bind Json.members? = none) :
    shape.Reads place path (invalidAt path shape.otherwise) :=
  ⟨path, _, .here (.noObject isNode other), rfl⟩

theorem Reads.node {outcome : Except SchemaError shape.Denoted}
    (known : json.field? "kind" = some (.string kind)) (hfields : shape.fields kind = some fields)
    (parts : shape.ReadsParts json fields path outcome) :
    shape.Reads (some json) path outcome := by
  cases outcome with
  | ok denoted => exact ⟨json, rfl, parts⟩
  | error error =>
    obtain ⟨before, name, inner, after, found, flaw, rfl, fine, inside, rfl⟩ := parts
    exact ⟨found, flaw, .part known hfields fine inside, rfl⟩

theorem ReadsParts.flawed {outcome : Except SchemaError inner.Denoted} {error : SchemaError}
    (reads : inner.Reads (json.field? name) (path ++ [name]) outcome)
    (failed : outcome = .error error) :
    shape.ReadsParts json ((name, inner) :: fields) path (.error error) := by
  subst failed
  obtain ⟨found, flaw, inside, rfl⟩ := reads
  exact ⟨[], name, inner, fields, found, flaw, rfl, nofun, inside, rfl⟩

theorem ReadsParts.fine {outcome : Except SchemaError shape.Denoted}
    (holds : inner.Holds (json.field? name)) (rest : shape.ReadsParts json fields path outcome) :
    shape.ReadsParts json ((name, inner) :: fields) path outcome := by
  cases outcome with
  | ok denoted => exact rest
  | error error =>
    obtain ⟨before, name', inner', after, found, flaw, rfl, fine, inside, rfl⟩ := rest
    exact ⟨(name, inner) :: before, name', inner', after, found, flaw, rfl,
      List.forall_mem_cons.2 ⟨holds, fine⟩, inside, rfl⟩

theorem ReadsParts.bind {outcome : Except SchemaError inner.Denoted}
    {next : inner.Denoted → Except SchemaError shape.Denoted}
    (reads : inner.Reads (json.field? name) (path ++ [name]) outcome)
    (rest : ∀ part denoted, json.field? name = some part → inner.Means part denoted →
      shape.ReadsParts json fields path (next denoted)) :
    shape.ReadsParts json ((name, inner) :: fields) path (outcome >>= next) := by
  cases outcome with
  | ok denoted =>
    obtain ⟨part, there, means⟩ := reads
    exact .fine ⟨part, denoted, there, means⟩ (rest part denoted there means)
  | error error => exact .flawed reads rfl

end Shape

/-- A kind is quoted in the report that it is unknown. -/
theorem quotePart_bind {α : Type} (kind : Option Json) (path : List String)
    (problem : Text → SchemaProblem) :
    (do let quoted ← Json.quotePart kind; invalidAt path (problem quoted) : Except SchemaError α) =
      .error (if kind.any Json.hasInteger then .unquotable
        else .invalid path (problem (Json.shown kind))) := by
  cases kind with
  | none => rfl
  | some kind =>
    rw [Json.quotePart, Option.any_some]
    split_ifs <;> rfl

theorem Json.field?_of_members? {json : Json} {members : List (Text × Json)}
    (h : json.members? = some members) (name : String) :
    json.field? name = member? members name := by
  rw [Json.field?, h, Option.bind_some]

theorem Json.string?_eq_some_iff {place : Option Json} {s : Text} :
    Json.string? place = some s ↔ place = some (.string s) := by
  unfold Json.string?
  split
  · simp
  · next other => exact ⟨nofun, fun there => (other s there).elim⟩

/-- What is at a place is read as the thing whose name it is. -/
theorem Json.string?_bind_eq_some_iff {α : Type} {ofName? : Text → Option α} {name : α → Text}
    (h : ∀ {s a}, ofName? s = some a ↔ s = name a) {place : Option Json} {a : α} :
    (Json.string? place).bind ofName? = some a ↔ place = some (.string (name a)) := by
  rw [Option.bind_eq_some_iff, ← Json.string?_eq_some_iff]
  constructor
  · rintro ⟨s, hs, ha⟩
    rw [hs, h.1 ha]
  · exact fun hs => ⟨_, hs, h.2 rfl⟩

theorem Json.unaryOp_eq_some_iff {place : Option Json} {op : UnaryOp} :
    (Json.string? place).bind UnaryOp.ofCode? = some op ↔
      place = some (.string (Text.ofChar op.code)) :=
  string?_bind_eq_some_iff UnaryOp.ofCode?_eq_some_iff

theorem Json.binaryOp_eq_some_iff {place : Option Json} {op : BinaryOp} :
    (Json.string? place).bind BinaryOp.ofCode? = some op ↔
      place = some (.string (Text.ofChar op.code)) :=
  string?_bind_eq_some_iff BinaryOp.ofCode?_eq_some_iff

theorem Json.form_eq_some_iff {place : Option Json} {form : Expr.Form} :
    (Json.string? place).bind Expr.Form.ofName? = some form ↔ place = some (.string form.name) :=
  string?_bind_eq_some_iff Expr.Form.ofName?_eq_some_iff

theorem Json.kind_eq_some_iff {place : Option Json} {kind : Kind} :
    (Json.string? place).bind Kind.ofName? = some kind ↔ place = some (.string kind.name) :=
  string?_bind_eq_some_iff Kind.ofName?_eq_some_iff

theorem Shape.fields_eq_none {shape : Shape} {kind : Text}
    (other : kind ∉ shape.nodes.map Prod.fst) : shape.fields kind = none := by
  refine List.lookup_eq_none_iff.2 fun node hnode => ?_
  rw [bne_iff_ne]
  rintro rfl
  exact other (List.mem_map_of_mem hnode)

/-- What is read as no form is no kind of expression. -/
theorem Json.fields_eq_none_of_form {place : Option Json} {kind : Text}
    (unknown : (Json.string? place).bind Expr.Form.ofName? = none)
    (known : place = some (.string kind)) : Shape.expr.fields kind = none := by
  refine Shape.fields_eq_none fun mem => ?_
  obtain ⟨form, -, rfl⟩ : ∃ form ∈ Expr.Form.all, (form.name : Text) = kind := List.mem_map.1 mem
  cases unknown.symm.trans (Json.form_eq_some_iff.2 known)

/-- What is read as no kind is no kind of value. -/
theorem Json.fields_eq_none_of_kind {place : Option Json} {kind : Text}
    (unknown : (Json.string? place).bind Kind.ofName? = none)
    (known : place = some (.string kind)) : Shape.value.fields kind = none := by
  refine Shape.fields_eq_none fun mem => ?_
  obtain ⟨kind, -, rfl⟩ : ∃ kind' ∈ Kind.all, (kind'.name : Text) = kind := List.mem_map.1 mem
  cases unknown.symm.trans (Json.kind_eq_some_iff.2 known)

/-! ### The readers -/

theorem reads_integerAt (place : Option Json) (path : List String) :
    Shape.integer.Reads place path (integerAt path place) := by
  rw [integerAt]
  split
  · next n hn => exact Option.bind_eq_some_iff.1 hn
  · next hnone =>
    refine .leaf rfl ?_
    rintro ⟨json, n, rfl, hn⟩
    cases hnone.symm.trans hn

theorem Value.reads_ofJson (place : Option Json) (path : List String) :
    Shape.value.Reads place path (Value.ofJson path place) := by
  rw [Value.ofJson]
  split
  · next hnone => exact .noObject rfl hnone
  · next members hmembers =>
    obtain ⟨json, rfl, object⟩ := Option.bind_eq_some_iff.1 hmembers
    simp only [← Json.field?_of_members? object]
    split
    · next hkind =>
      have known := Json.kind_eq_some_iff.1 hkind
      refine .node known rfl ?_
      split
      · next s payload => exact .string known payload
      · next other =>
        refine .flawed (.leaf rfl ?_) rfl
        rintro ⟨_, s, there, rfl⟩
        exact other s there
    · next hkind =>
      have known := Json.kind_eq_some_iff.1 hkind
      refine .node known rfl ?_
      split
      · next b payload => exact .boolean known payload
      · next other =>
        refine .flawed (.leaf rfl ?_) rfl
        rintro ⟨_, b, there, rfl⟩
        exact other b there
    · next hkind =>
      have known := Json.kind_eq_some_iff.1 hkind
      exact .node known rfl (.bind (reads_integerAt _ _) fun part n there tagged =>
        .integer known there tagged)
    · next unknown =>
      rw [quotePart_bind]
      exact ⟨path, _, .here (.valueKind (by simp [object]) fun kind known =>
        Json.fields_eq_none_of_kind unknown known), rfl⟩

/-- The expression at a place in a document. -/
def Expr.ofPart (path : List String) : Option Json → Except SchemaError Expr
  | some json => ofJson json path
  | none => invalidAt path .notExpression

theorem Expr.partOfJson_partsOfJson (members : List (Text × Json)) (path : List String)
    (name : String) :
    partOfJson (partsOfJson members) path name =
      ofPart (path ++ [name]) (Json.member? members name) := by
  induction members with
  | nil => rfl
  | cons m members ih =>
    rw [partsOfJson, partOfJson, Json.member?, List.lookup_cons, List.lookup_cons]
    cases (name : Text) == m.1 with
    | true => rfl
    | false => exact ih

theorem Expr.reads_ofJson (json : Json) (path : List String) :
    Shape.expr.Reads (some json) path (Expr.ofJson json path) := by
  induction json using Json.induction_parts generalizing path with
  | object members ih =>
    by_cases tag : (members.lookup Json.integerTag).isSome
    · rw [ofJson, if_pos tag]
      exact .noObject rfl (if_pos tag)
    · have object : (Json.object members).members? = some members := if_neg tag
      -- whichever member is read, the reader that waits for its path is the one of the induction
      have part (name : String) : Shape.expr.Reads ((Json.object members).field? name)
          (path ++ [name]) (partOfJson (partsOfJson members) path name) := by
        rw [partOfJson_partsOfJson, Json.field?_of_members? object]
        cases there : Json.member? members name with
        | none => exact .noObject rfl rfl
        | some value =>
          obtain ⟨before, after, rfl, -⟩ := List.lookup_eq_some_iff.1 there
          exact ih (↑name, value) (by simp) (path ++ [name])
      rw [ofJson, if_neg tag]
      simp only [← Json.field?_of_members? object]
      -- a case for each kind that is known, in the order of the reader, then every other kind
      split
      · next hform =>
        have known := Json.form_eq_some_iff.1 hform
        refine .node known rfl (.bind (Value.reads_ofJson _ _) fun json value there denotes => ?_)
        exact .lit known there denotes
      · next hform =>
        have known := Json.form_eq_some_iff.1 hform
        refine .node known rfl ?_
        split
        · next unknown =>
          refine .flawed (.leaf rfl ?_) rfl
          rintro ⟨_, op, there, rfl⟩
          cases unknown.symm.trans (Json.unaryOp_eq_some_iff.2 there)
        · next op hop =>
          have code := Json.unaryOp_eq_some_iff.1 hop
          refine .fine ⟨_, op, code, rfl⟩
            (.bind (part "operand") fun json operand there denotes => ?_)
          exact .unary known code there denotes
      · next hform =>
        have known := Json.form_eq_some_iff.1 hform
        refine .node known rfl ?_
        split
        · next unknown =>
          refine .flawed (.leaf rfl ?_) rfl
          rintro ⟨_, op, there, rfl⟩
          cases unknown.symm.trans (Json.binaryOp_eq_some_iff.2 there)
        · next op hop =>
          have code := Json.binaryOp_eq_some_iff.1 hop
          refine .fine ⟨_, op, code, rfl⟩ (.bind (part "left") fun json left there denotes =>
            .bind (part "right") fun json' right there' denotes' => ?_)
          exact .binary known code there there' denotes denotes'
      · next hform =>
        have known := Json.form_eq_some_iff.1 hform
        refine .node known rfl (.bind (part "condition") fun json c there denotes =>
          .bind (part "thenBranch") fun json' t there' denotes' =>
            .bind (part "elseBranch") fun json'' e there'' denotes'' => ?_)
        exact .cond known there there' there'' denotes denotes' denotes''
      · next hform =>
        have known := Json.form_eq_some_iff.1 hform
        refine .node known rfl (.bind (reads_integerAt _ _) fun json binder there tagged =>
          .bind (part "body") fun json' body there' denotes => ?_)
        exact .lam known there there' tagged denotes
      · next hform =>
        have known := Json.form_eq_some_iff.1 hform
        refine .node known rfl (.bind (reads_integerAt _ _) fun json id there tagged => ?_)
        exact .var known there tagged
      · next unknown =>
        rw [quotePart_bind]
        exact ⟨path, _, .here (.exprKind (by simp [object]) fun kind known =>
          Json.fields_eq_none_of_form unknown known), rfl⟩
  | _ => exact .noObject rfl rfl

/-! ### What a document denotes -/

/-- One string stands at a place, so no other one does. -/
theorem Json.ne_string {place : Option Json} {s s' : Text} (there : place = some (.string s))
    (other : s ≠ s') : place ≠ some (.string s') := by
  rintro rfl
  exact other (Json.string.inj (Option.some.inj there)).symm

theorem Json.DenotesValue.unique {json : Json} {value value' : Value} (h : json.DenotesValue value)
    (h' : json.DenotesValue value') : value = value' := by
  cases h with
  | string kind payload => cases h' with
    | string _ payload' =>
      cases payload.symm.trans payload'
      rfl
    | _ kind' => exact absurd kind' (Json.ne_string kind (by decide))
  | boolean kind payload => cases h' with
    | boolean _ payload' =>
      cases payload.symm.trans payload'
      rfl
    | _ kind' => exact absurd kind' (Json.ne_string kind (by decide))
  | integer kind payload tagged => cases h' with
    | integer _ payload' tagged' =>
      cases payload.symm.trans payload'
      cases tagged.symm.trans tagged'
      rfl
    | _ kind' => exact absurd kind' (Json.ne_string kind (by decide))

/-- A document denotes at most one expression. -/
theorem Json.Denotes.unique {json : Json} {expr expr' : Expr} (h : json.Denotes expr)
    (h' : json.Denotes expr') : expr = expr' := by
  induction h generalizing expr' with
  | lit kind atValue denotes => cases h' with
    | lit _ atValue' denotes' =>
      cases atValue.symm.trans atValue'
      rw [denotes.unique denotes']
    | _ kind' => exact absurd kind' (Json.ne_string kind (by decide))
  | unary kind code atOperand _ ih => cases h' with
    | unary _ code' atOperand' denotes' =>
      cases (Json.unaryOp_eq_some_iff.2 code).symm.trans (Json.unaryOp_eq_some_iff.2 code')
      cases atOperand.symm.trans atOperand'
      rw [ih denotes']
    | _ kind' => exact absurd kind' (Json.ne_string kind (by decide))
  | binary kind code atLeft atRight _ _ ihl ihr => cases h' with
    | binary _ code' atLeft' atRight' hleft hright =>
      cases (Json.binaryOp_eq_some_iff.2 code).symm.trans (Json.binaryOp_eq_some_iff.2 code')
      cases atLeft.symm.trans atLeft'
      cases atRight.symm.trans atRight'
      rw [ihl hleft, ihr hright]
    | _ kind' => exact absurd kind' (Json.ne_string kind (by decide))
  | cond kind atCondition atThen atElse _ _ _ ihc iht ihe => cases h' with
    | cond _ atCondition' atThen' atElse' hc ht he =>
      cases atCondition.symm.trans atCondition'
      cases atThen.symm.trans atThen'
      cases atElse.symm.trans atElse'
      rw [ihc hc, iht ht, ihe he]
    | _ kind' => exact absurd kind' (Json.ne_string kind (by decide))
  | lam kind atBinder atBody tagged _ ih => cases h' with
    | lam _ atBinder' atBody' tagged' denotes' =>
      cases atBinder.symm.trans atBinder'
      cases tagged.symm.trans tagged'
      cases atBody.symm.trans atBody'
      rw [ih denotes']
    | _ kind' => exact absurd kind' (Json.ne_string kind (by decide))
  | var kind atId tagged => cases h' with
    | var _ atId' tagged' =>
      cases atId.symm.trans atId'
      cases tagged.symm.trans tagged'
      rfl
    | _ kind' => exact absurd kind' (Json.ne_string kind (by decide))

namespace Expr

theorem ofJson_eq_ok_iff {json : Json} {path : List String} {expr : Expr} :
    ofJson json path = .ok expr ↔ json.Denotes expr := by
  have reads := reads_ofJson json path
  cases outcome : ofJson json path with
  | ok expr' =>
    rw [outcome] at reads
    obtain ⟨_, ⟨⟩, denotes⟩ := reads
    rw [Except.ok.injEq]
    exact ⟨fun h => h ▸ denotes, denotes.unique⟩
  | error error =>
    rw [outcome] at reads
    obtain ⟨found, flaw, first, -⟩ := reads
    exact ⟨nofun, fun denotes => absurd ⟨json, expr, rfl, denotes⟩ first.not_holds⟩

theorem ofJson_eq_error_iff {json : Json} {path : List String} {error : SchemaError} :
    ofJson json path = .error error ↔
      ∃ found flaw, FirstFlaw .expr (some json) path found flaw ∧ error = flaw.report found := by
  have reads := reads_ofJson json path
  constructor
  · intro outcome
    rw [outcome] at reads
    exact reads
  · rintro ⟨found, flaw, first, rfl⟩
    cases outcome : ofJson json path with
    | ok expr =>
      rw [outcome] at reads
      obtain ⟨_, ⟨⟩, denotes⟩ := reads
      exact absurd ⟨json, expr, rfl, denotes⟩ first.not_holds
    | error error =>
      rw [outcome] at reads
      obtain ⟨found', flaw', first', rfl⟩ := reads
      obtain ⟨rfl, rfl⟩ := first.unique first'
      rfl

end Expr

end Lambda94
