import Lambda94.Proofs.JsonReading
import Lambda94.Proofs.JsonText
import Lambda94.Proofs.WireText

/-!
# Expressions written as JSON and read back

An expression whose integer literals have 64 bits is read back from its JSON text, with any
indentation: `Expr.ofJsonText_toJsonText`.  Its JSON form is plain, so the text denotes that form
again; every tagged integer in the form is well formed, and only the integers of the expression are
tagged, because no other member is named like the tag; and the form denotes the expression.
-/

namespace Lambda94

/-! ### The form is plain -/

namespace Json

/-- The names that the members of tagged integers, values and expressions have, in an order that
agrees with the order of the members of each of them. -/
def fieldNames : List Text :=
  [integerTag, "kind", "value", "op", "operand", "left", "right", "condition", "thenBranch",
    "elseBranch", "binderId", "body", "id"]

theorem Plain.ofFields {members : List (Text × Json)}
    (fields : (members.map Prod.fst).Sublist fieldNames) (plain : ∀ m ∈ members, Plain m.2) :
    Plain (.object members) := by
  have nodup : fieldNames.Nodup := by decide
  have named : ∀ name ∈ fieldNames, index? name = none := by decide +kernel
  exact .object (fields.nodup nodup) (fun name hname => named name (fields.subset hname)) plain

theorem plain_ofInt (n : Int) : (ofInt n).Plain := by
  refine .ofFields (show [integerTag].Sublist fieldNames by decide) ?_
  simp [Plain.string]

end Json

theorem Value.plain_toJson (value : Value) : value.toJson.Plain := by
  have payload : (toJson.payload value).Plain := by
    cases value with
    | str s => exact .string s
    | bool b => exact .bool b
    | int n => exact Json.plain_ofInt n
  have names : (["kind", "value"] : List Text).Sublist Json.fieldNames := by decide
  refine .ofFields names ?_
  simp [payload, Json.Plain.string]

theorem Expr.plain_toJson (expr : Expr) : expr.toJson.Plain := by
  induction expr with
  | lit value =>
    have names : (["kind", "value"] : List Text).Sublist Json.fieldNames := by decide
    refine .ofFields names ?_
    simp [value.plain_toJson, Json.Plain.string]
  | unary op operand ih =>
    have names : (["kind", "op", "operand"] : List Text).Sublist Json.fieldNames := by decide
    refine .ofFields names ?_
    simp [ih, Json.Plain.string]
  | binary op left right ihl ihr =>
    have names : (["kind", "op", "left", "right"] : List Text).Sublist Json.fieldNames := by decide
    refine .ofFields names ?_
    simp [ihl, ihr, Json.Plain.string]
  | cond c t e ihc iht ihe =>
    have names : (["kind", "condition", "thenBranch", "elseBranch"] : List Text).Sublist
        Json.fieldNames := by
      decide
    refine .ofFields names ?_
    simp [ihc, iht, ihe, Json.Plain.string]
  | lam binder body ih =>
    have names : (["kind", "binderId", "body"] : List Text).Sublist Json.fieldNames := by decide
    refine .ofFields names ?_
    simp [ih, Json.plain_ofInt, Json.Plain.string]
  | var id =>
    have names : (["kind", "id"] : List Text).Sublist Json.fieldNames := by decide
    refine .ofFields names ?_
    simp [Json.plain_ofInt, Json.Plain.string]

/-! ### Tagged integers -/

namespace Json

theorem toInt?_ofInt (n : Int) : (ofInt n).toInt? = some n := Decimal.toInt?_ofInt n

theorem checkMembers_eq_ok {members : List (Text × Json)}
    (values : ∀ m ∈ members, m.2.checkIntegers = .ok ()) : checkMembers members = .ok () := by
  induction members with
  | nil => rfl
  | cons m members ih =>
    obtain ⟨hm, hmembers⟩ := List.forall_mem_cons.1 values
    rw [checkMembers]
    exact bind_eq_ok_iff.2 ⟨(), hm, ih hmembers⟩

theorem checkIntegers_object {members : List (Text × Json)}
    (untagged : members.lookup integerTag = none)
    (values : ∀ m ∈ members, m.2.checkIntegers = .ok ()) :
    (object members).checkIntegers = .ok () := by
  rw [checkIntegers]
  refine bind_eq_ok_iff.2 ⟨(), checkMembers_eq_ok values, ?_⟩
  rw [untagged]

theorem checkIntegers_string (s : Text) : (string s).checkIntegers = .ok () := rfl

theorem checkIntegers_ofInt (n : Int) : (ofInt n).checkIntegers = .ok () := by
  have payload : checkPayload (.string (Decimal.ofInt n)) = .ok () := by
    rw [checkPayload, payload?, Decimal.toInt?_ofInt]
  rw [ofInt, checkIntegers]
  exact bind_eq_ok_iff.2 ⟨(), checkMembers_eq_ok (by simp [checkIntegers_string]), payload⟩

end Json

theorem Value.checkIntegers_toJson (value : Value) : value.toJson.checkIntegers = .ok () := by
  have payload : (toJson.payload value).checkIntegers = .ok () := by
    cases value with
    | str s => rfl
    | bool b => rfl
    | int n => exact Json.checkIntegers_ofInt n
  exact Json.checkIntegers_object rfl (by simp [payload, Json.checkIntegers_string])

theorem Expr.checkIntegers_toJson (expr : Expr) : expr.toJson.checkIntegers = .ok () := by
  induction expr with
  | lit value =>
    exact Json.checkIntegers_object rfl
      (by simp [value.checkIntegers_toJson, Json.checkIntegers_string])
  | unary op operand ih =>
    exact Json.checkIntegers_object rfl (by simp [ih, Json.checkIntegers_string])
  | binary op left right ihl ihr =>
    exact Json.checkIntegers_object rfl (by simp [ihl, ihr, Json.checkIntegers_string])
  | cond c t e ihc iht ihe =>
    exact Json.checkIntegers_object rfl (by simp [ihc, iht, ihe, Json.checkIntegers_string])
  | lam binder body ih =>
    exact Json.checkIntegers_object rfl
      (by simp [ih, Json.checkIntegers_ofInt, Json.checkIntegers_string])
  | var id =>
    exact Json.checkIntegers_object rfl
      (by simp [Json.checkIntegers_ofInt, Json.checkIntegers_string])

/-! ### What the form denotes -/

theorem Value.denotes_toJson {value : Value} (fits : value.Fits) :
    value.toJson.DenotesValue value := by
  cases value with
  | str s => exact .string rfl rfl
  | bool b => exact .boolean rfl rfl
  | int n =>
    have same : Value.ofInt n = .int n := congrArg Value.int (wrap_eq_self fits.1 fits.2)
    have denotes : (Value.int n).toJson.DenotesValue (.ofInt n) :=
      .integer rfl rfl (Json.toInt?_ofInt n)
    rwa [same] at denotes

namespace Expr

/-- Integer literals have 64 bits. -/
def LiteralsFit : Expr → Prop := Each Value.Fits (fun _ => True) fun _ => True

theorem denotes_toJson {expr : Expr} (fits : expr.LiteralsFit) : expr.toJson.Denotes expr := by
  induction expr with
  | lit value => exact .lit rfl rfl (Value.denotes_toJson fits)
  | unary op operand ih => exact .unary rfl rfl rfl (ih fits)
  | binary op left right ihl ihr => exact .binary rfl rfl rfl rfl (ihl fits.1) (ihr fits.2)
  | cond c t e ihc iht ihe =>
    exact .cond rfl rfl rfl rfl (ihc fits.1) (iht fits.2.1) (ihe fits.2.2)
  | lam binder body ih => exact .lam rfl rfl rfl (Json.toInt?_ofInt binder) (ih fits.2)
  | var id => exact .var rfl rfl (Json.toInt?_ofInt id)

/-- The JSON text of an expression denotes the expression, whatever the width of its indentation;
`Json.indentation` gives the width that a number, or none, asks for. -/
theorem ofJsonText_toJsonText {expr : Expr} (fits : expr.LiteralsFit) (width : Nat) :
    ofJsonText (expr.toJsonText width) = .ok expr := by
  rw [ofJsonText, toJsonText, expr.plain_toJson.ofText?_text width]
  exact bind_eq_ok_iff.2
    ⟨(), expr.checkIntegers_toJson, ofJson_eq_ok_iff.2 (denotes_toJson fits)⟩

/-- Ids of any size, the least integer literal, and a string of the tag, a quote, a backslash, a
control character, characters beyond ASCII and both halves of a pair the wrong way round, indented
as far as indentation goes. -/
theorem ofJsonText_toJsonText_of_every_form :
    let least := -0x8000000000000000
    let marks := Text.ofString "__bigint__\"\\\x01é𝔸" ++ [0xDE00, 0xD83D]
    let expr : Expr := .lam (-0x1000000000000000000) (.cond
      (.unary .logicalNot (.lit (.bool true)))
      (.binary (.strict .concat) (.lit (.str marks)) (.var 0x1000000000000000000))
      (.unary .intToString (.lit (.int least))))
    expr.LiteralsFit ∧
      ofJsonText (expr.toJsonText (Json.indentation (some (.infinite false)))) = .ok expr := by
  intro least marks expr
  have fits : expr.LiteralsFit := by simp [expr, least, LiteralsFit, Each, Value.Fits]
  exact ⟨fits, ofJsonText_toJsonText fits _⟩

end Expr

end Lambda94
