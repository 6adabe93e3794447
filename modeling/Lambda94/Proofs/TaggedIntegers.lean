import Lambda94.Expr.Json
import Mathlib.Tactic.Common

/-!
# Tagged integers in a document

A document is well tagged if every object in it that has a member `__bigint__` spells an integer
there.  The check of the tagged integers goes through their payloads from the inside out
(`Json.payloads`) and reports the first one that spells no integer: `checkIntegers_cases`.
-/

namespace Lambda94

/-- In a list, the first element without a property is determined. -/
theorem first_unique {α : Type} {P : α → Prop} {before before' after after' : List α} {x x' : α}
    (h : before ++ x :: after = before' ++ x' :: after') (fine : ∀ y ∈ before, P y) (hx : ¬P x)
    (fine' : ∀ y ∈ before', P y) (hx' : ¬P x') : x = x' := by
  induction before generalizing before' with
  | nil =>
    cases before' with
    | nil => exact (List.cons.inj h).1
    | cons y before' => exact absurd (fine' x ((List.cons.inj h).1 ▸ List.mem_cons_self)) hx
  | cons y before ih =>
    obtain ⟨hy, fine⟩ := List.forall_mem_cons.1 fine
    cases before' with
    | nil => exact absurd ((List.cons.inj h).1 ▸ hy) hx'
    | cons y' before' =>
      exact ih (List.cons.inj h).2 fine fun z hz => fine' z (List.mem_cons_of_mem _ hz)

/-! ### Spelled integers -/

namespace Decimal

/-- A decimal digit. -/
def IsDigit (u : UInt16) : Prop := Text.unit '0' ≤ u ∧ u ≤ Text.unit '9'

instance (u : UInt16) : Decidable (IsDigit u) := inferInstanceAs (Decidable (_ ∧ _))

/-- At least one decimal digit, with a minus sign in front or without one. -/
def IsInteger (text : Text) : Prop :=
  ∃ digits, (text = digits ∨ text = Text.unit '-' :: digits) ∧ digits ≠ [] ∧ ∀ u ∈ digits, IsDigit u

theorem isDigit_iff {u : UInt16} : IsDigit u ↔ 48 ≤ u.toNat ∧ u.toNat < 58 := by
  have zero : (Text.unit '0').toNat = 48 := rfl
  have nine : (Text.unit '9').toNat = 57 := rfl
  rw [IsDigit, UInt16.le_iff_toNat_le, UInt16.le_iff_toNat_le, zero, nine]
  omega

theorem isSome_digit?_iff {u : UInt16} : (digit? u).isSome ↔ IsDigit u := by
  rw [digit?, isDigit_iff]
  split_ifs with h
  · exact ⟨fun _ => h, fun _ => rfl⟩
  · exact ⟨nofun, fun h' => absurd h' h⟩

theorem isSome_mapM_digit?_iff {text : Text} :
    (text.mapM digit?).isSome ↔ ∀ u ∈ text, IsDigit u := by
  induction text with
  | nil => simp
  | cons u text ih =>
    rw [List.forall_mem_cons, ← isSome_digit?_iff, ← ih, List.mapM_cons]
    cases digit? u <;> cases text.mapM digit? <;> simp

theorem isSome_toNat?_iff {text : Text} :
    (toNat? text).isSome ↔ text ≠ [] ∧ ∀ u ∈ text, IsDigit u := by
  rw [toNat?]
  cases text with
  | nil => simp
  | cons u text =>
    rw [if_neg (by simp), Option.isSome_map, isSome_mapM_digit?_iff]
    exact ⟨fun all => ⟨List.cons_ne_nil _ _, all⟩, And.right⟩

theorem not_isDigit_minus : ¬IsDigit minus := by decide

theorem isSome_toInt?_iff {text : Text} : (toInt? text).isSome ↔ IsInteger text := by
  cases text with
  | nil =>
    refine ⟨nofun, ?_⟩
    rintro ⟨digits, rfl | h, some, -⟩
    · exact absurd rfl some
    · cases h
  | cons u text =>
    rw [toInt?]
    split_ifs with sign
    · subst sign
      rw [Option.isSome_map, isSome_toNat?_iff]
      refine ⟨fun h => ⟨text, .inr rfl, h⟩, ?_⟩
      rintro ⟨digits, rfl | h, some, all⟩
      · exact absurd (all minus List.mem_cons_self) not_isDigit_minus
      · exact List.cons.inj h |>.2 ▸ ⟨some, all⟩
    · rw [Option.isSome_map, isSome_toNat?_iff]
      refine ⟨fun h => ⟨u :: text, .inl rfl, h⟩, ?_⟩
      rintro ⟨digits, rfl | h, some, all⟩
      · exact ⟨some, all⟩
      · exact absurd (List.cons.inj h).1 sign

end Decimal

namespace Json

/-! ### Parts of a document -/

/-- What holds of a value if it holds of its parts holds of every value. -/
@[elab_as_elim]
theorem induction_parts {P : Json → Prop} (null : P .null) (bool : ∀ b, P (.bool b))
    (number : ∀ x, P (.number x)) (string : ∀ s, P (.string s))
    (array : ∀ items, (∀ item ∈ items, P item) → P (.array items))
    (object : ∀ members, (∀ m ∈ members, P m.2) → P (.object members)) (json : Json) : P json :=
  @Json.rec P (fun items => ∀ item ∈ items, P item) (fun members => ∀ m ∈ members, P m.2)
    (fun m => P m.2) null bool number string array object nofun
    (fun _ _ hitem hitems => List.forall_mem_cons.2 ⟨hitem, hitems⟩) nofun
    (fun _ _ hm hmembers => List.forall_mem_cons.2 ⟨hm, hmembers⟩) (fun _ _ hvalue => hvalue) json

/-- The value, or a value inside it. -/
inductive HasPart : Json → Json → Prop
  | self (json : Json) : HasPart json json
  | item {items : List Json} {item part : Json} (mem : item ∈ items) (within : HasPart item part) :
    HasPart (.array items) part
  | member {members : List (Text × Json)} {m : Text × Json} {part : Json} (mem : m ∈ members)
    (within : HasPart m.2 part) : HasPart (.object members) part

/-- A string that spells an integer. -/
def SpellsInteger (json : Json) : Prop := ∃ s, json = .string s ∧ Decimal.IsInteger s

/-- Every object with a member `__bigint__` spells an integer there. -/
def WellTagged (json : Json) : Prop :=
  ∀ members payload, json.HasPart (.object members) →
    members.lookup integerTag = some payload → payload.SpellsInteger

theorem isSome_payload?_iff {payload : Json} : payload.payload?.isSome ↔ payload.SpellsInteger := by
  constructor
  · intro h
    cases payload with
    | string s => exact ⟨s, rfl, Decimal.isSome_toInt?_iff.1 h⟩
    | _ => cases h
  · rintro ⟨s, rfl, h⟩
    exact Decimal.isSome_toInt?_iff.2 h

/-! ### Payloads from the inside out -/

mutual

/-- The payloads of the tagged integers in a value, those inside an object before its own. -/
def payloads : Json → List Json
  | .array items => payloadsOfItems items
  | .object members => payloadsOfMembers members ++ (members.lookup integerTag).toList
  | _ => []

/-- The payloads of the tagged integers in the items of an array. -/
def payloadsOfItems : List Json → List Json
  | [] => []
  | item :: items => item.payloads ++ payloadsOfItems items

/-- The payloads of the tagged integers in the members of an object. -/
def payloadsOfMembers : List (Text × Json) → List Json
  | [] => []
  | (_, value) :: members => value.payloads ++ payloadsOfMembers members

end

theorem payloadsOfItems_eq (items : List Json) :
    payloadsOfItems items = items.flatMap payloads := by
  induction items with
  | nil => rfl
  | cons item items ih => rw [payloadsOfItems, ih, List.flatMap_cons]

theorem payloadsOfMembers_eq (members : List (Text × Json)) :
    payloadsOfMembers members = members.flatMap fun m => m.2.payloads := by
  induction members with
  | nil => rfl
  | cons m members ih => rw [payloadsOfMembers, ih, List.flatMap_cons]

theorem mem_payloads_iff {json payload : Json} :
    payload ∈ json.payloads ↔
      ∃ members, json.HasPart (.object members) ∧ members.lookup integerTag = some payload := by
  constructor
  · induction json using induction_parts with
    | array items ih =>
      intro mem
      rw [payloads, payloadsOfItems_eq, List.mem_flatMap] at mem
      obtain ⟨item, hitem, mem⟩ := mem
      obtain ⟨members, within, tagged⟩ := ih item hitem mem
      exact ⟨members, .item hitem within, tagged⟩
    | object members ih =>
      intro mem
      rw [payloads, payloadsOfMembers_eq, List.mem_append, List.mem_flatMap, Option.mem_toList]
        at mem
      rcases mem with ⟨m, hm, mem⟩ | tagged
      · obtain ⟨inner, within, tagged⟩ := ih m hm mem
        exact ⟨inner, .member hm within, tagged⟩
      · exact ⟨members, .self _, tagged⟩
    | _ => exact nofun
  · rintro ⟨members, within, tagged⟩
    generalize hpart : object members = part at within
    induction within with
    | self =>
      subst hpart
      rw [payloads, tagged]
      exact List.mem_append_right _ List.mem_cons_self
    | item hitem _ ih =>
      rw [payloads, payloadsOfItems_eq]
      exact List.mem_flatMap.2 ⟨_, hitem, ih hpart⟩
    | member hm _ ih =>
      rw [payloads, payloadsOfMembers_eq]
      exact List.mem_append_left _ (List.mem_flatMap.2 ⟨_, hm, ih hpart⟩)

theorem wellTagged_iff {json : Json} :
    json.WellTagged ↔ ∀ payload ∈ json.payloads, payload.SpellsInteger := by
  constructor
  · intro h payload mem
    obtain ⟨members, within, tagged⟩ := mem_payloads_iff.1 mem
    exact h members payload within tagged
  · intro h members payload within tagged
    exact h payload (mem_payloads_iff.2 ⟨members, within, tagged⟩)

/-! ### The check -/

theorem checkItems_eq {items : List Json}
    (h : ∀ item ∈ items, item.checkIntegers = forM item.payloads checkPayload) :
    checkItems items = forM (payloadsOfItems items) checkPayload := by
  induction items with
  | nil => rfl
  | cons item items ih =>
    obtain ⟨hitem, hitems⟩ := List.forall_mem_cons.1 h
    rw [checkItems, payloadsOfItems, List.forM_append, hitem, ih hitems]

theorem checkMembers_eq {members : List (Text × Json)}
    (h : ∀ m ∈ members, m.2.checkIntegers = forM m.2.payloads checkPayload) :
    checkMembers members = forM (payloadsOfMembers members) checkPayload := by
  induction members with
  | nil => rfl
  | cons m members ih =>
    obtain ⟨hm, hmembers⟩ := List.forall_mem_cons.1 h
    rw [checkMembers, payloadsOfMembers, List.forM_append, hm, ih hmembers]

theorem checkIntegers_eq (json : Json) : json.checkIntegers = forM json.payloads checkPayload := by
  induction json using induction_parts with
  | array items ih => rw [checkIntegers, payloads, checkItems_eq ih]
  | object members ih =>
    rw [checkIntegers, payloads, List.forM_append, checkMembers_eq ih]
    cases members.lookup integerTag with
    | none => rfl
    | some payload => simp
  | _ => rfl

/-- What is reported of a payload that spells no integer: it is quoted, which fails if there is a
tagged integer in it. -/
def unspelled (payload : Json) : SchemaError :=
  if payload.hasInteger then .unquotable else .badInteger (payload.text 0)

/-- The payload is the first one, from the inside out, that spells no integer. -/
def FirstUnspelled (json payload : Json) : Prop :=
  ∃ before after, json.payloads = before ++ payload :: after ∧
    (∀ p ∈ before, p.SpellsInteger) ∧ ¬payload.SpellsInteger

theorem FirstUnspelled.unique {json payload payload' : Json} (h : json.FirstUnspelled payload)
    (h' : json.FirstUnspelled payload') : payload = payload' := by
  obtain ⟨before, after, hsplit, fine, hpayload⟩ := h
  obtain ⟨before', after', hsplit', fine', hpayload'⟩ := h'
  exact first_unique (hsplit.symm.trans hsplit') fine hpayload fine' hpayload'

theorem FirstUnspelled.not_wellTagged {json payload : Json} (h : json.FirstUnspelled payload) :
    ¬json.WellTagged := by
  obtain ⟨before, after, hsplit, -, hpayload⟩ := h
  exact fun tagged => hpayload (wellTagged_iff.1 tagged payload (by simp [hsplit]))

theorem checkPayload_of_spells {payload : Json} (h : payload.SpellsInteger) :
    checkPayload payload = .ok () := by
  obtain ⟨n, hn⟩ := Option.isSome_iff_exists.1 (isSome_payload?_iff.2 h)
  rw [checkPayload, hn]

theorem checkPayload_of_not_spells {payload : Json} (h : ¬payload.SpellsInteger) :
    checkPayload payload = .error payload.unspelled := by
  rw [← isSome_payload?_iff, Option.not_isSome_iff_eq_none] at h
  rw [checkPayload, h, quotePart, unspelled]
  split_ifs <;> rfl

/-- The check succeeds on well tagged documents, and else it reports the first payload that spells
no integer. -/
theorem checkIntegers_cases (json : Json) :
    (json.WellTagged ∧ json.checkIntegers = .ok ()) ∨
      ∃ payload, json.FirstUnspelled payload ∧ json.checkIntegers = .error payload.unspelled := by
  have check (payloads : List Json) :
      ((∀ p ∈ payloads, p.SpellsInteger) ∧ forM payloads checkPayload = .ok ()) ∨
        ∃ before payload after, payloads = before ++ payload :: after ∧
          (∀ p ∈ before, p.SpellsInteger) ∧ ¬payload.SpellsInteger ∧
            forM payloads checkPayload = .error payload.unspelled := by
    induction payloads with
    | nil => exact .inl ⟨nofun, rfl⟩
    | cons payload payloads ih =>
      rw [List.forM_cons]
      by_cases h : payload.SpellsInteger
      · rw [checkPayload_of_spells h]
        rcases ih with ⟨fine, hok⟩ | ⟨before, first, after, rfl, fine, hfirst, herror⟩
        · exact .inl ⟨List.forall_mem_cons.2 ⟨h, fine⟩, hok⟩
        · exact .inr ⟨payload :: before, first, after, rfl, List.forall_mem_cons.2 ⟨h, fine⟩,
            hfirst, herror⟩
      · rw [checkPayload_of_not_spells h]
        exact .inr ⟨[], payload, payloads, rfl, nofun, h, rfl⟩
  rw [wellTagged_iff, checkIntegers_eq]
  rcases check json.payloads with h | ⟨before, payload, after, hsplit, fine, hpayload, herror⟩
  · exact .inl h
  · exact .inr ⟨payload, ⟨before, after, hsplit, fine, hpayload⟩, herror⟩

end Json

end Lambda94
