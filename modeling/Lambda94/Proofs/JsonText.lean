import Lambda94.Json.Reader
import Lambda94.Json.Writer
import Mathlib.Data.List.DropRight
import Mathlib.Tactic.Common

/-!
# JSON text that is read back

The reader undoes the writer on documents without numbers whose objects name their members as the
reader keeps them, `Json.Plain`: `Json.Plain.ofText?_text`.

White space in front of a value never matters to the reader, so what is said of a text is said of
every text that is the same after its leading white space.  The bound of the reader never matters
either, because every piece of a text is a suffix of the text (`suffix_write`) and the reader only
goes on to shorter pieces.
-/

namespace Lambda94

/-! ### Strings -/

namespace Text

theorem quoted_append (text rest : Text) :
    quoted text ++ rest =
      quotationMark :: ((characters text).flatMap escape ++ quotationMark :: rest) := by
  rw [quoted, List.cons_append, List.append_assoc, List.singleton_append]

end Text

namespace Json

theorem hexUnit?_hexDigits (u : UInt16) : hexUnit? (Text.hexDigits u) = some u := by
  have hu : u.toNat < 0x10000 := u.toNat_lt
  have thousands := Text.hexValue?_hexDigit (d := u.toNat / 0x1000) (by omega)
  have hundreds := Text.hexValue?_hexDigit (d := u.toNat / 0x100 % 0x10) (by omega)
  have tens := Text.hexValue?_hexDigit (d := u.toNat / 0x10 % 0x10) (by omega)
  have ones := Text.hexValue?_hexDigit (d := u.toNat % 0x10) (by omega)
  have value : Numeral.value 16 [u.toNat / 0x1000, u.toNat / 0x100 % 0x10, u.toNat / 0x10 % 0x10,
      u.toNat % 0x10] = u.toNat := by
    simp only [Numeral.value, List.foldl_cons, List.foldl_nil]
    omega
  simp [hexUnit?, Text.hexDigits, thousands, hundreds, tens, ones, value]

section

variable {text units rest : Text} {u : UInt16}

theorem readString_quotationMark (rest : Text) :
    readString (Text.quotationMark :: rest) = some ([], rest) := rfl

theorem readString_letter {letter : UInt16} (hletter : unescape? letter = some u)
    (h : readString text = some (units, rest)) :
    readString (Text.backslash :: letter :: text) = some (u :: units, rest) := by
  show readString (0x5C :: letter :: text) = _
  rw [readString]
  · rw [hletter, h]
    rfl
  · rintro a b c d rest rfl -
    cases hletter

theorem readString_digits (h : readString text = some (units, rest)) :
    readString (Text.backslash :: Text.unit 'u' :: (Text.hexDigits u ++ text)) =
      some (u :: units, rest) := by
  have digits := hexUnit?_hexDigits u
  simp only [Text.hexDigits] at digits
  show readString (0x5C :: 0x75 :: (Text.hexDigits u ++ text)) = _
  simp [Text.hexDigits, readString, digits, h]

theorem readString_unit (above : 0x20 ≤ u.toNat) (quote : u ≠ Text.quotationMark)
    (backslash : u ≠ Text.backslash) (h : readString text = some (units, rest)) :
    readString (u :: text) = some (u :: units, rest) := by
  rw [readString]
  · simp [Nat.not_lt.2 above, backslash, h]
  · exact quote
  · exact fun _ _ _ _ _ heq => absurd heq backslash
  · exact fun _ _ heq => absurd heq backslash

/-- However a unit is escaped, the reader finds it. -/
theorem readString_escapeUnit (h : readString text = some (units, rest)) :
    readString (Text.escapeUnit u ++ text) = some (u :: units, rest) := by
  rw [Text.escapeUnit]
  split_ifs with quote backslash b t n f r digits
  · subst quote; exact readString_letter rfl h
  · subst backslash; exact readString_letter rfl h
  · subst b; exact readString_letter rfl h
  · subst t; exact readString_letter rfl h
  · subst n; exact readString_letter rfl h
  · subst f; exact readString_letter rfl h
  · subst r; exact readString_letter rfl h
  · exact readString_digits h
  · rw [Bool.or_eq_true, not_or, decide_eq_true_iff, Nat.not_lt] at digits
    exact readString_unit digits.1 quote backslash h

/-- Half of a pair stands for itself in a string. -/
theorem readString_surrogate (half : Text.isSurrogate u = true)
    (h : readString text = some (units, rest)) :
    readString (u :: text) = some (u :: units, rest) := by
  have above : 0xD800 ≤ u.toNat := by
    simp only [Text.isSurrogate, Text.isHighSurrogate, Text.isLowSurrogate, Bool.or_eq_true,
      Bool.and_eq_true, decide_eq_true_iff] at half
    omega
  refine readString_unit (by omega) ?_ ?_ h
  all_goals
    rintro rfl
    exact absurd above (by decide)

end

theorem readString_escaped (text rest : Text) :
    readString ((Text.characters text).flatMap Text.escape ++ Text.quotationMark :: rest) =
      some (text, rest) := by
  fun_induction Text.characters text with
  | case1 => rfl
  | case2 u =>
    rw [List.flatMap_cons, List.append_assoc]
    exact readString_escapeUnit (readString_quotationMark rest)
  | case3 u v text pair ih =>
    rw [Bool.and_eq_true] at pair
    rw [List.flatMap_cons, List.append_assoc]
    have low : Text.isSurrogate v = true := by rw [Text.isSurrogate, pair.2, Bool.or_true]
    have high : Text.isSurrogate u = true := by rw [Text.isSurrogate, pair.1, Bool.true_or]
    exact readString_surrogate high (readString_surrogate low ih)
  | case4 u v text _ ih =>
    rw [List.flatMap_cons, List.append_assoc]
    exact readString_escapeUnit ih

/-! ### White space -/

theorem skipSpace_cons {u : UInt16} (h : isSpace u = false) (text : Text) :
    skipSpace (u :: text) = u :: text := List.dropWhile_cons_of_neg (by simp [h])

theorem skipSpace_space (text : Text) : skipSpace (Text.unit ' ' :: text) = skipSpace text :=
  List.dropWhile_cons_of_pos (by decide)

theorem skipSpace_skipSpace (text : Text) : skipSpace (skipSpace text) = skipSpace text :=
  List.dropWhile_idempotent _ _

theorem skipSpace_breakLine (width depth : Nat) (text : Text) :
    skipSpace (breakLine width depth text) = skipSpace text := by
  rw [breakLine]
  split_ifs
  · rfl
  · have spaces : ∀ u ∈ Text.unit '\n' :: List.replicate (width * depth) (Text.unit ' '),
        isSpace u = true := by
      intro u hu
      rcases List.mem_cons.1 hu with rfl | hu
      · decide
      · rw [List.eq_of_mem_replicate hu]
        decide
    rw [← List.cons_append]
    exact List.dropWhile_append_of_pos spaces

theorem length_pos_of_skipSpace {text rest : Text} {u : UInt16} (h : skipSpace text = u :: rest) :
    0 < text.length := by
  refine List.length_pos_iff.2 ?_
  rintro rfl
  cases h

/-! ### Suffixes -/

theorem suffix_breakLine (width depth : Nat) (rest : Text) :
    rest <:+ breakLine width depth rest := by
  rw [breakLine]
  split_ifs
  · exact List.suffix_rfl
  · exact (List.suffix_append _ _).trans (List.suffix_cons _ _)

theorem suffix_writeName (width : Nat) (name : Text) (rest : Text) :
    rest <:+ writeName width name rest := by
  rw [writeName]
  refine List.IsSuffix.trans ?_ ((List.suffix_cons _ _).trans (List.suffix_append _ _))
  split_ifs
  · exact List.suffix_rfl
  · exact List.suffix_cons _ _

mutual

/-- What a value is written in front of is a suffix of the text. -/
theorem suffix_write (width depth : Nat) : ∀ (json : Json) (rest : Text),
    rest <:+ write width depth json rest
  | .null, rest | .bool true, rest | .bool false, rest | .number _, rest | .string _, rest => by
    rw [write]
    exact List.suffix_append _ _
  | .array [], rest | .object [], rest => by
    rw [write]
    exact (List.suffix_cons _ _).trans (List.suffix_cons _ _)
  | .array (item :: items), rest => by
    rw [write]
    exact (List.suffix_cons _ rest).trans <| (suffix_breakLine width depth _).trans <|
      (suffix_writeItems width depth items _).trans <|
      (suffix_write width (depth + 1) item _).trans <|
      (suffix_breakLine width (depth + 1) _).trans (List.suffix_cons _ _)
  | .object ((name, value) :: members), rest => by
    rw [write]
    exact (List.suffix_cons _ rest).trans <| (suffix_breakLine width depth _).trans <|
      (suffix_writeMembers width depth members _).trans <|
      (suffix_write width (depth + 1) value _).trans <| (suffix_writeName width name _).trans <|
      (suffix_breakLine width (depth + 1) _).trans (List.suffix_cons _ _)

theorem suffix_writeItems (width depth : Nat) : ∀ (items : List Json) (rest : Text),
    rest <:+ writeItems width depth items rest
  | [], rest => List.suffix_rfl
  | item :: items, rest => by
    rw [writeItems]
    exact (suffix_writeItems width depth items rest).trans <|
      (suffix_write width (depth + 1) item _).trans <|
      (suffix_breakLine width (depth + 1) _).trans (List.suffix_cons _ _)

theorem suffix_writeMembers (width depth : Nat) :
    ∀ (members : List (Text × Json)) (rest : Text),
      rest <:+ writeMembers width depth members rest
  | [], rest => List.suffix_rfl
  | (name, value) :: members, rest => by
    rw [writeMembers]
    exact (suffix_writeMembers width depth members rest).trans <|
      (suffix_write width (depth + 1) value _).trans <| (suffix_writeName width name _).trans <|
      (suffix_breakLine width (depth + 1) _).trans (List.suffix_cons _ _)

end

/-- The text from an item on is longer than the text from the next item on. -/
theorem length_writeItems_lt (width depth : Nat) (item next : Json) (items : List Json)
    (tail : Text) :
    (write width (depth + 1) next (writeItems width depth items tail)).length <
      (write width (depth + 1) item (writeItems width depth (next :: items) tail)).length := by
  have hbreak := suffix_breakLine width (depth + 1)
    (write width (depth + 1) next (writeItems width depth items tail))
  have hitem := suffix_write width (depth + 1) item (writeItems width depth (next :: items) tail)
  exact Nat.lt_of_lt_of_le (Nat.lt_succ_of_le hbreak.length_le) hitem.length_le

/-- The text from a member on is longer than the text from the next member on. -/
theorem length_writeMembers_lt (width depth : Nat) (m next : Text × Json)
    (members : List (Text × Json)) (tail : Text) :
    (writeName width next.1 (write width (depth + 1) next.2
        (writeMembers width depth members tail))).length <
      (writeName width m.1 (write width (depth + 1) m.2
        (writeMembers width depth (next :: members) tail))).length := by
  have hbreak := suffix_breakLine width (depth + 1) (writeName width next.1
    (write width (depth + 1) next.2 (writeMembers width depth members tail)))
  have hvalue := (suffix_write width (depth + 1) m.2
    (writeMembers width depth (next :: members) tail)).trans (suffix_writeName width m.1 _)
  exact Nat.lt_of_lt_of_le (Nat.lt_succ_of_le hbreak.length_le) hvalue.length_le

/-! ### Objects as the reader keeps them -/

theorem foldl_put {members earlier : List (Text × Json)}
    (nodup : ((earlier ++ members).map Prod.fst).Nodup) :
    members.foldl (fun ms m => put ms m.1 m.2) earlier = earlier ++ members := by
  induction members generalizing earlier with
  | nil => simp
  | cons m members ih =>
    have fresh : (earlier.any fun e => e.1 == m.1) = false := by
      rw [List.any_eq_false]
      intro e he heq
      rw [List.map_append, List.nodup_append] at nodup
      exact nodup.2.2 _ (List.mem_map_of_mem he) m.1 (by simp) (by simpa using heq)
    have hput : put earlier m.1 m.2 = earlier ++ [m] := by
      rw [put, fresh]
      rfl
    rw [List.foldl_cons, hput, ih (by simpa using nodup), List.append_assoc, List.singleton_append]

/-- Members with names of their own, none of them an array index, stay as they are. -/
theorem ofMembers_eq_object {members : List (Text × Json)}
    (nodup : (members.map Prod.fst).Nodup)
    (named : ∀ name ∈ members.map Prod.fst, index? name = none) :
    ofMembers members = .object members := by
  have noIndex : ∀ m ∈ members, index? m.1 = none :=
    fun m hm => named _ (List.mem_map_of_mem hm)
  have distinct : members.foldl (fun ms m => put ms m.1 m.2) [] = members :=
    foldl_put (by simpa using nodup)
  have indexed : (members.filterMap fun m => (index? m.1).map fun i => (i, m)) = [] := by
    rw [List.filterMap_eq_nil_iff]
    intro m hm
    rw [noIndex m hm, Option.map_none]
  have all : (members.filter fun m => (index? m.1).isNone) = members := by
    rw [List.filter_eq_self]
    intro m hm
    rw [noIndex m hm, Option.isNone_none]
  simp [ofMembers, distinct, indexed, all]

/-- A value without numbers in which the members of every object have names of their own that are
no array indices. -/
inductive Plain : Json → Prop
  | null : Plain .null
  | bool (b : Bool) : Plain (.bool b)
  | string (s : Text) : Plain (.string s)
  | array {items : List Json} (plain : ∀ item ∈ items, Plain item) : Plain (.array items)
  | object {members : List (Text × Json)} (nodup : (members.map Prod.fst).Nodup)
      (named : ∀ name ∈ members.map Prod.fst, index? name = none)
      (plain : ∀ m ∈ members, Plain m.2) : Plain (.object members)

theorem Plain.write_ne_nil {json : Json} (h : json.Plain) (width depth : Nat) (rest : Text) :
    write width depth json rest ≠ [] := by
  cases h with
  | null => exact List.cons_ne_nil _ _
  | bool b => cases b <;> exact List.cons_ne_nil _ _
  | string s => exact List.cons_ne_nil _ _
  | @array items _ => cases items <;> exact List.cons_ne_nil _ _
  | @object members _ _ _ => cases members <;> exact List.cons_ne_nil _ _

/-! ### Reading a value back

The marks are the quotation mark `0x22`, the comma `0x2C`, the colon `0x3A`, the brackets `0x5B` and
`0x5D`, and the braces `0x7B` and `0x7D`. -/

/-- A reader finds a value, and what follows it, in the text of the value at a depth, unless that
text is longer than the limit. -/
def Restores (read : Text → Option (Json × Text)) (limit width depth : Nat)
    (json : Json) : Prop :=
  ∀ text rest, skipSpace text = skipSpace (write width depth json rest) →
    (write width depth json rest).length ≤ limit → read text = some (json, rest)

section

variable {read : Text → Option (Json × Text)} {limit width depth bound : Nat}
  {text tail next rest : Text}

theorem readItems_last {item : Json} (hread : read text = some (item, tail))
    (htail : skipSpace tail = 0x5D :: rest) (bound : Nat) :
    readItems read (bound + 1) text = some ([item], rest) := by
  simp [readItems, hread, htail]

theorem readItems_cons {item : Json} {items : List Json} (hread : read text = some (item, tail))
    (htail : skipSpace tail = 0x2C :: next)
    (hnext : readItems read bound next = some (items, rest)) :
    readItems read (bound + 1) text = some (item :: items, rest) := by
  simp [readItems, hread, htail, hnext]

theorem readItems_write {item : Json} {items : List Json}
    (restores : ∀ i ∈ item :: items, Restores read limit width (depth + 1) i)
    (htail : skipSpace tail = 0x5D :: rest)
    (htext : skipSpace text =
      skipSpace (write width (depth + 1) item (writeItems width depth items tail)))
    (hbound : (write width (depth + 1) item (writeItems width depth items tail)).length ≤ bound)
    (hlimit : bound ≤ limit) :
    readItems read bound text = some (item :: items, rest) := by
  induction items generalizing item bound text with
  | nil =>
    rw [writeItems] at htext hbound
    have hpos := length_pos_of_skipSpace htail
    have hlen := (suffix_write width (depth + 1) item tail).length_le
    obtain ⟨bound, rfl⟩ := Nat.exists_eq_add_one.2 (show 0 < bound by omega)
    exact readItems_last (restores item List.mem_cons_self _ _ htext (by omega)) htail bound
  | cons next items ih =>
    obtain ⟨hitem, hitems⟩ := List.forall_mem_cons.1 restores
    have hlt := length_writeItems_lt width depth item next items tail
    obtain ⟨bound, rfl⟩ := Nat.exists_eq_add_one.2 (show 0 < bound by omega)
    have hread := hitem _ _ htext (by omega)
    exact readItems_cons hread (skipSpace_cons (by decide) _)
      (ih hitems (skipSpace_breakLine width (depth + 1) _) (by omega) (by omega))

theorem readName_of_readString {name inner : Text}
    (htext : skipSpace text = 0x22 :: inner) (hname : readString inner = some (name, next))
    (hnext : skipSpace next = 0x3A :: rest) : readName text = some (name, rest) := by
  simp [readName, htext, hname, hnext]

theorem readName_writeName {name : Text}
    (h : skipSpace text = skipSpace (writeName width name rest)) :
    ∃ tail, readName text = some (name, tail) ∧ skipSpace tail = skipSpace rest := by
  rw [writeName, Text.quoted_append, skipSpace_cons (by decide)] at h
  refine ⟨if width = 0 then rest else Text.unit ' ' :: rest, ?_, ?_⟩
  · exact readName_of_readString h (readString_escaped name _) (skipSpace_cons (by decide) _)
  · split_ifs
    · rfl
    · exact skipSpace_space rest

theorem readMembers_last {m : Text × Json} {inner : Text}
    (hname : readName text = some (m.1, inner)) (hread : read inner = some (m.2, tail))
    (htail : skipSpace tail = 0x7D :: rest) (bound : Nat) :
    readMembers read (bound + 1) text = some ([m], rest) := by
  simp [readMembers, hname, hread, htail]

theorem readMembers_cons {m : Text × Json} {members : List (Text × Json)} {inner : Text}
    (hname : readName text = some (m.1, inner)) (hread : read inner = some (m.2, tail))
    (htail : skipSpace tail = 0x2C :: next)
    (hnext : readMembers read bound next = some (members, rest)) :
    readMembers read (bound + 1) text = some (m :: members, rest) := by
  simp [readMembers, hname, hread, htail, hnext]

theorem readMembers_write {m : Text × Json} {members : List (Text × Json)}
    (restores : ∀ e ∈ m :: members, Restores read limit width (depth + 1) e.2)
    (htail : skipSpace tail = 0x7D :: rest)
    (htext : skipSpace text = skipSpace (writeName width m.1 (write width (depth + 1) m.2
      (writeMembers width depth members tail))))
    (hbound : (writeName width m.1 (write width (depth + 1) m.2
      (writeMembers width depth members tail))).length ≤ bound)
    (hlimit : bound ≤ limit) :
    readMembers read bound text = some (m :: members, rest) := by
  induction members generalizing m bound text with
  | nil =>
    rw [writeMembers] at htext hbound
    have hpos := length_pos_of_skipSpace htail
    have hlen := (suffix_write width (depth + 1) m.2 tail).length_le
    have hname := (suffix_writeName width m.1 (write width (depth + 1) m.2 tail)).length_le
    obtain ⟨bound, rfl⟩ := Nat.exists_eq_add_one.2 (show 0 < bound by omega)
    obtain ⟨inner, hread, hinner⟩ := readName_writeName htext
    have hvalue := restores m List.mem_cons_self _ _ hinner (by omega)
    exact readMembers_last hread hvalue htail bound
  | cons next members ih =>
    obtain ⟨hm, hmembers⟩ := List.forall_mem_cons.1 restores
    have hlt := length_writeMembers_lt width depth m next members tail
    have hname := (suffix_writeName width m.1 (write width (depth + 1) m.2
      (writeMembers width depth (next :: members) tail))).length_le
    obtain ⟨bound, rfl⟩ := Nat.exists_eq_add_one.2 (show 0 < bound by omega)
    obtain ⟨inner, hread, hinner⟩ := readName_writeName htext
    have hvalue := hm _ _ hinner (by omega)
    exact readMembers_cons hread hvalue (skipSpace_cons (by decide) _)
      (ih hmembers (skipSpace_breakLine width (depth + 1) _) (by omega) (by omega))

/-- No value starts with a closing bracket. -/
theorem readValue_of_bracket (h : skipSpace text = 0x5D :: rest) (bound : Nat) :
    readValue bound text = none := by
  cases bound with
  | zero => rfl
  | succ bound =>
    have noDigits : readDigits (0x5D :: rest) = ([], 0x5D :: rest) := rfl
    rw [readValue, h]
    simp [readNumber, readMagnitude, noDigits]

theorem readValue_string {s inner : Text} (htext : skipSpace text = 0x22 :: inner)
    (hs : readString inner = some (s, rest)) :
    readValue (bound + 1) text = some (.string s, rest) := by
  rw [readValue, htext]
  simp [hs]

theorem readValue_array {items : List Json} {inner : Text}
    (htext : skipSpace text = 0x5B :: inner) (more : ∀ rest', skipSpace inner ≠ 0x5D :: rest')
    (hitems : readItems (readValue bound) bound (skipSpace inner) = some (items, rest)) :
    readValue (bound + 1) text = some (.array items, rest) := by
  rw [readValue, htext]
  simp [hitems]

theorem readValue_object {members : List (Text × Json)} {inner : Text}
    (htext : skipSpace text = 0x7B :: inner) (more : ∀ rest', skipSpace inner ≠ 0x7D :: rest')
    (hmembers : readMembers (readValue bound) bound (skipSpace inner) = some (members, rest)) :
    readValue (bound + 1) text = some (ofMembers members, rest) := by
  rw [readValue, htext]
  simp [hmembers]

theorem restores_array {items : List Json}
    (restores : ∀ i ∈ items, Restores (readValue limit) limit width (depth + 1) i) :
    Restores (readValue (limit + 1)) (limit + 1) width depth (.array items) := by
  intro text rest htext hlen
  cases items with
  | nil =>
    rw [readValue, htext]
    rfl
  | cons item items =>
    rw [write, skipSpace_cons (by decide)] at htext
    rw [write, List.length_cons] at hlen
    generalize htail : breakLine width depth (Text.unit ']' :: rest) = tail at htext hlen
    have hclose : skipSpace tail = 0x5D :: rest := by
      rw [← htail, skipSpace_breakLine]
      exact skipSpace_cons (by decide) rest
    have hbreak := (suffix_breakLine width (depth + 1)
      (write width (depth + 1) item (writeItems width depth items tail))).length_le
    have hinner := skipSpace_breakLine width (depth + 1)
      (write width (depth + 1) item (writeItems width depth items tail))
    -- a bracket at once would not have been read as the first item
    have more (rest' : Text) : skipSpace (breakLine width (depth + 1)
        (write width (depth + 1) item (writeItems width depth items tail))) ≠ 0x5D :: rest' := by
      intro heq
      have hread := restores item List.mem_cons_self _ _ hinner (by omega)
      rw [readValue_of_bracket heq] at hread
      cases hread
    exact readValue_array htext more (readItems_write restores hclose
      ((skipSpace_skipSpace _).trans hinner) (by omega) (Nat.le_refl _))

theorem restores_object {members : List (Text × Json)} (nodup : (members.map Prod.fst).Nodup)
    (named : ∀ name ∈ members.map Prod.fst, index? name = none)
    (restores : ∀ m ∈ members, Restores (readValue limit) limit width (depth + 1) m.2) :
    Restores (readValue (limit + 1)) (limit + 1) width depth (.object members) := by
  intro text rest htext hlen
  cases members with
  | nil =>
    rw [readValue, htext]
    rfl
  | cons m members =>
    rw [write, skipSpace_cons (by decide)] at htext
    rw [write, List.length_cons] at hlen
    generalize htail : breakLine width depth (Text.unit '}' :: rest) = tail at htext hlen
    have hclose : skipSpace tail = 0x7D :: rest := by
      rw [← htail, skipSpace_breakLine]
      exact skipSpace_cons (by decide) rest
    have hbreak := (suffix_breakLine width (depth + 1) (writeName width m.1
      (write width (depth + 1) m.2 (writeMembers width depth members tail)))).length_le
    have hinner := skipSpace_breakLine width (depth + 1) (writeName width m.1
      (write width (depth + 1) m.2 (writeMembers width depth members tail)))
    have more (rest' : Text) : skipSpace (breakLine width (depth + 1) (writeName width m.1
        (write width (depth + 1) m.2 (writeMembers width depth members tail)))) ≠
          0x7D :: rest' := by
      rw [hinner, writeName, Text.quoted_append, skipSpace_cons (by decide)]
      exact fun heq => absurd (List.cons.inj heq).1 (by decide)
    rw [← ofMembers_eq_object nodup named]
    exact readValue_object htext more (readMembers_write restores hclose
      ((skipSpace_skipSpace _).trans hinner) (by omega) (Nat.le_refl _))

end

theorem Plain.restores {json : Json} (h : json.Plain) (limit width depth : Nat) :
    Restores (readValue limit) limit width depth json := by
  -- the induction is on the bound of the reader, which goes down with every level of nesting
  induction limit generalizing json depth with
  | zero =>
    intro text rest _ hlen
    exact absurd (List.length_eq_zero_iff.1 (Nat.le_zero.1 hlen)) (h.write_ne_nil width depth rest)
  | succ limit ih =>
    cases h with
    | null =>
      intro text rest htext _
      rw [readValue, htext]
      rfl
    | bool b =>
      intro text rest htext _
      rw [readValue, htext]
      cases b <;> rfl
    | string s =>
      intro text rest htext _
      rw [write, Text.quoted_append, skipSpace_cons (by decide)] at htext
      exact readValue_string htext (readString_escaped s rest)
    | array plain => exact restores_array fun item hitem => ih (plain item hitem) (depth + 1)
    | object nodup named plain =>
      exact restores_object nodup named fun m hm => ih (plain m hm) (depth + 1)

/-- The text of a plain value denotes that value, whatever its indentation. -/
theorem Plain.ofText?_text {json : Json} (h : json.Plain) (width : Nat) :
    ofText? (json.text width) = some json := by
  have hread := h.restores (write width 0 json []).length width 0 _ [] rfl (Nat.le_refl _)
  rw [ofText?, text, hread]
  rfl

end Json

end Lambda94
