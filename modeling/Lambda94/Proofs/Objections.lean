import Lambda94.Proofs.JsonReading

/-!
# Objections to a text

A text that is not accepted as the JSON form of an expression has one first objection to it: it is
no document, or a tagged integer in it spells no integer, or the document has a flaw.  The objection
is reported with a message of its own, unless the message is to quote a tagged integer:
`Expr.ofJsonText_accepts_or_objects`.
-/

namespace Lambda94

/-- What can be said against a text. -/
inductive Objection
  /-- It is no document. -/
  | malformed
  /-- The payload of a tagged integer spells no integer. -/
  | unspelled (payload : Json)
  /-- There is a flaw at a path. -/
  | flawed (path : List String) (flaw : Flaw)

namespace Objection

/-- The objection is the first one to a text.  Tagged integers come before everything else. -/
def IsFirst (text : Text) : Objection → Prop
  | .malformed => Json.ofText? text = none
  | .unspelled payload => ∃ json, Json.ofText? text = some json ∧ json.FirstUnspelled payload
  | .flawed path flaw => ∃ json, Json.ofText? text = some json ∧ json.WellTagged ∧
      FirstFlaw .expr (some json) [] path flaw

/-- The part of the document that the report of an objection quotes. -/
def quoted : Objection → Option Json
  | .malformed => none
  | .unspelled payload => some payload
  | .flawed _ flaw => flaw.quoted

/-- What is reported of an objection. -/
def report : Objection → SchemaError
  | .malformed => .malformed
  | .unspelled payload => payload.unspelled
  | .flawed path flaw => flaw.report path

/-- How a message about an objection is to begin. -/
def opening : Objection → Text
  | .malformed => "Invalid JSON in expression: "
  | .unspelled _ => "Invalid bigint encoding: "
  | .flawed path _ => "Invalid expression JSON at " ++ SchemaError.pathText path

/-- There is at most one first objection to a text. -/
theorem IsFirst.unique {text : Text} {objection objection' : Objection}
    (h : objection.IsFirst text) (h' : objection'.IsFirst text) : objection = objection' := by
  match objection, objection', h, h' with
  | .malformed, .malformed, _, _ => rfl
  | .malformed, .unspelled _, absent, ⟨_, read, _⟩ | .malformed, .flawed _ _, absent, ⟨_, read, _⟩
  | .unspelled _, .malformed, ⟨_, read, _⟩, absent
  | .flawed _ _, .malformed, ⟨_, read, _⟩, absent =>
    cases read.symm.trans absent
  | .unspelled _, .unspelled _, ⟨_, read, first⟩, ⟨_, read', first'⟩ =>
    cases read.symm.trans read'
    rw [first.unique first']
  | .unspelled _, .flawed _ _, ⟨_, read, first⟩, ⟨_, read', tagged, _⟩
  | .flawed _ _, .unspelled _, ⟨_, read', tagged, _⟩, ⟨_, read, first⟩ =>
    cases read.symm.trans read'
    exact absurd tagged first.not_wellTagged
  | .flawed _ _, .flawed _ _, ⟨_, read, _, first⟩, ⟨_, read', _, first'⟩ =>
    cases read.symm.trans read'
    obtain ⟨rfl, rfl⟩ := first.unique first'
    rfl

theorem message_report_of_quotable {objection : Objection}
    (quotable : objection.quoted.any Json.hasInteger = false) :
    ∃ rest, objection.report.message = objection.opening ++ rest := by
  cases objection with
  | malformed => exact ⟨[], (List.append_nil _).symm⟩
  | unspelled payload =>
    have untagged : payload.hasInteger = false := quotable
    rw [report, Json.unspelled, untagged]
    exact ⟨payload.text 0, rfl⟩
  | flawed path flaw =>
    have untagged : flaw.quoted.any Json.hasInteger = false := quotable
    rw [report, Flaw.report, untagged]
    exact ⟨": " ++ flaw.named.text, List.append_assoc _ _ _⟩

theorem report_of_not_quotable {objection : Objection}
    (unquotable : objection.quoted.any Json.hasInteger = true) :
    objection.report = .unquotable := by
  cases objection with
  | malformed => cases unquotable
  | unspelled payload =>
    have tagged : payload.hasInteger = true := unquotable
    rw [report, Json.unspelled, if_pos tagged]
  | flawed path flaw =>
    have tagged : flaw.quoted.any Json.hasInteger = true := unquotable
    rw [report, Flaw.report, if_pos tagged]

theorem head?_opening (objection : Objection) :
    objection.opening.head? = some (Text.unit 'I') := by
  cases objection with
  | malformed | unspelled payload => rfl
  | flawed path flaw =>
    rw [opening, List.head?_append]
    rfl

theorem message_unquotable_ne (objection : Objection) (rest : Text) :
    SchemaError.unquotable.message ≠ objection.opening ++ rest := by
  intro h
  have head : SchemaError.unquotable.message.head? = some (Text.unit 'I') := by
    rw [h, List.head?_append, head?_opening, Option.some_or]
  exact absurd head (by decide)

end Objection

namespace Expr

variable {text : Text} {json : Json}

theorem ofJsonText_of_wellTagged (read : Json.ofText? text = some json)
    (tagged : json.WellTagged) : ofJsonText text = ofJson json [] := by
  rcases json.checkIntegers_cases with ⟨-, hcheck⟩ | ⟨payload, first, -⟩
  · rw [ofJsonText, read]
    exact congrArg (· >>= fun _ => ofJson json []) hcheck
  · exact absurd tagged first.not_wellTagged

theorem ofJsonText_of_firstUnspelled {payload : Json} (read : Json.ofText? text = some json)
    (first : json.FirstUnspelled payload) : ofJsonText text = .error payload.unspelled := by
  rcases json.checkIntegers_cases with ⟨tagged, -⟩ | ⟨payload', first', hcheck⟩
  · exact absurd tagged first.not_wellTagged
  · rw [ofJsonText, read, first.unique first']
    exact congrArg (· >>= fun _ => ofJson json []) hcheck

theorem ofJsonText_of_isFirst {objection : Objection} (first : objection.IsFirst text) :
    ofJsonText text = .error objection.report := by
  cases objection with
  | malformed =>
    have read : Json.ofText? text = none := first
    rw [ofJsonText, read]
    rfl
  | unspelled payload =>
    obtain ⟨json, read, first⟩ := first
    exact ofJsonText_of_firstUnspelled read first
  | flawed path flaw =>
    obtain ⟨json, read, tagged, first⟩ := first
    rw [ofJsonText_of_wellTagged read tagged]
    exact ofJson_eq_error_iff.2 ⟨path, flaw, first, rfl⟩

/-- A text denotes an expression or has a first objection to it. -/
theorem denotes_or_isFirst (text : Text) :
    (∃ json expr, Json.ofText? text = some json ∧ json.WellTagged ∧ json.Denotes expr) ∨
      ∃ objection : Objection, objection.IsFirst text := by
  cases read : Json.ofText? text with
  | none => exact .inr ⟨.malformed, read⟩
  | some json =>
    rcases json.checkIntegers_cases with ⟨tagged, -⟩ | ⟨payload, first, -⟩
    · cases outcome : ofJson json [] with
      | ok expr => exact .inl ⟨json, expr, rfl, tagged, ofJson_eq_ok_iff.1 outcome⟩
      | error error =>
        obtain ⟨path, flaw, first, -⟩ := ofJson_eq_error_iff.1 outcome
        exact .inr ⟨.flawed path flaw, json, read, tagged, first⟩
    · exact .inr ⟨.unspelled payload, json, read, first⟩

theorem ofJsonText_eq_ok_iff {expr : Expr} :
    ofJsonText text = .ok expr ↔
      ∃ json, Json.ofText? text = some json ∧ json.WellTagged ∧ json.Denotes expr := by
  have accepts {json : Json} {expr : Expr} (read : Json.ofText? text = some json)
      (tagged : json.WellTagged) (denotes : json.Denotes expr) : ofJsonText text = .ok expr :=
    (ofJsonText_of_wellTagged read tagged).trans (ofJson_eq_ok_iff.2 denotes)
  constructor
  · intro outcome
    rcases denotes_or_isFirst text with ⟨json, expr', read, tagged, denotes⟩ | ⟨objection, first⟩
    · cases outcome.symm.trans (accepts read tagged denotes)
      exact ⟨json, read, tagged, denotes⟩
    · cases outcome.symm.trans (ofJsonText_of_isFirst first)
  · rintro ⟨json, read, tagged, denotes⟩
    exact accepts read tagged denotes

/-- The texts that are accepted are the documents that denote an expression with well spelled
integers.  To every other text there is exactly one first objection, which is reported; the message
begins as it should exactly if no tagged integer is in what the message quotes. -/
theorem ofJsonText_accepts_or_objects (text : Text) :
    (∀ expr, ofJsonText text = .ok expr ↔
      ∃ json, Json.ofText? text = some json ∧ json.WellTagged ∧ json.Denotes expr) ∧
    ((¬∃ expr, ofJsonText text = .ok expr) → ∃! objection : Objection, objection.IsFirst text) ∧
    ∀ objection : Objection, objection.IsFirst text →
      ofJsonText text = .error objection.report ∧
        ((∃ rest, objection.report.message = objection.opening ++ rest) ↔
          objection.quoted.any Json.hasInteger = false) := by
  refine ⟨fun expr => ofJsonText_eq_ok_iff, fun rejected => ?_, fun objection first => ?_⟩
  · rcases denotes_or_isFirst text with ⟨json, expr, denotes⟩ | ⟨objection, first⟩
    · exact absurd ⟨expr, ofJsonText_eq_ok_iff.2 ⟨json, denotes⟩⟩ rejected
    · exact ⟨objection, first, fun other first' => first'.unique first⟩
  · refine ⟨ofJsonText_of_isFirst first, ?_, Objection.message_report_of_quotable⟩
    rintro ⟨rest, message⟩
    refine Bool.eq_false_iff.2 fun unquotable => ?_
    rw [Objection.report_of_not_quotable unquotable] at message
    exact objection.message_unquotable_ne rest message

/-- An id that is a plain number, inside an operand; and a tagged integer that spells none, under a
name that is half of a pair and differs from the name after it in that half only. -/
theorem ofJsonText_objects_to_id_and_member :
    let text : Text := "\x7b\"kind\":\"unary\",\"op\":\"!\",\"operand\":" ++
      "\x7b\"kind\":\"variable\",\"id\":1\x7d\x7d"
    let text' : Text := "\x7b\"kind\":\"variable\",\"id\":\x7b\"__bigint__\":\"1\"\x7d," ++
      "\"\\ud83d\":\x7b\"__bigint__\":\"x\"\x7d,\"\\ud83e\":0\x7d"
    (∃ objection : Objection, objection.IsFirst text ∧
      objection.report = .invalid ["operand", "id"] .notInteger) ∧
    ∃ objection : Objection, objection.IsFirst text' ∧
      objection.report = .badInteger "\"x\"" := by
  intro text text'
  have first (text : Text) (error : SchemaError) (outcome : ofJsonText text = .error error) :
      ∃ objection : Objection, objection.IsFirst text ∧ objection.report = error := by
    obtain ⟨-, objects, reports⟩ := ofJsonText_accepts_or_objects text
    obtain ⟨objection, first, -⟩ := objects (by simp [outcome])
    exact ⟨objection, first, Except.error.inj ((reports objection first).1.symm.trans outcome)⟩
  exact ⟨first text _ (by decide +kernel), first text' _ (by decide +kernel)⟩

/-- An object whose kind is a tagged integer is refused with a message of no objection. -/
theorem ofJsonText_tagged_kind_unquoted :
    ∃ error, ofJsonText "\x7b\"kind\":\x7b\"__bigint__\":\"1\"\x7d\x7d" = .error error ∧
      ∀ (objection : Objection) (rest : Text), error.message ≠ objection.opening ++ rest :=
  ⟨.unquotable, by decide +kernel, Objection.message_unquotable_ne⟩

end Expr

end Lambda94
