/-!
# Text

A text is a list of 16-bit units.  A character of the basic plane is one unit, any other character
is a pair of surrogates, a high one and a low one.  Nothing keeps a text from being cut through the
middle of a pair, or from holding a surrogate that has no partner: such a half is a character of its
own, different from every other half, and only a printed text shows the replacement character in its
place.
-/

namespace Lambda94

/-- A text, as the list of its 16-bit units. -/
abbrev Text := List UInt16

namespace Text

/-! ### From strings -/

/-- The unit of a character of the basic plane. -/
def unit (c : Char) : UInt16 := UInt16.ofNat c.toNat

/-- The units of a character. -/
def ofChar (c : Char) : Text :=
  if c.toNat < 0x10000 then [unit c]
  else
    let n := c.toNat - 0x10000
    [UInt16.ofNat (0xD800 + n / 0x400), UInt16.ofNat (0xDC00 + n % 0x400)]

/-- The units of a string. -/
def ofString (s : String) : Text := s.toList.flatMap ofChar

instance : Coe String Text := ⟨ofString⟩

/-! ### Characters -/

/-- A unit that opens a surrogate pair. -/
def isHighSurrogate (u : UInt16) : Bool := 0xD800 ≤ u.toNat && u.toNat < 0xDC00

/-- A unit that closes a surrogate pair. -/
def isLowSurrogate (u : UInt16) : Bool := 0xDC00 ≤ u.toNat && u.toNat < 0xE000

/-- A unit that is half of a character. -/
def isSurrogate (u : UInt16) : Bool := isHighSurrogate u || isLowSurrogate u

/-- The characters of a text, each with its own units: a pair of surrogates, or any other unit by
itself. -/
def characters : Text → List Text
  | [] => []
  | [u] => [[u]]
  | u :: v :: rest =>
    if isHighSurrogate u && isLowSurrogate v then [u, v] :: characters rest
    else [u] :: characters (v :: rest)

/-- The character with the given units; half of a pair is shown as the replacement character. -/
def toChar : Text → Char
  | [u] => if u.toNat.isValidChar then Char.ofNat u.toNat else '\uFFFD'
  | [high, low] => Char.ofNat (0x10000 + (high.toNat - 0xD800) * 0x400 + (low.toNat - 0xDC00))
  | _ => '\uFFFD'

/-- A text as it is printed. -/
def printed (text : Text) : String := String.ofList ((characters text).map toChar)

/-- The characters of a text make up the text. -/
theorem flatten_characters (text : Text) : (characters text).flatten = text := by
  fun_induction characters text with
  | case1 => rfl
  | case2 u => rfl
  | case3 u v rest pair ih => simp [ih]
  | case4 u v rest pair ih => simp [ih]

/-- A unit that opens no pair is a character. -/
theorem characters_cons {u : UInt16} (h : isHighSurrogate u = false) (text : Text) :
    characters (u :: text) = [u] :: characters text := by
  cases text with
  | nil => rfl
  | cons v text => rw [characters, h, Bool.false_and, if_neg Bool.false_ne_true]

/-- Without surrogates every unit is a character. -/
theorem characters_eq_map {text : Text} (h : ∀ u ∈ text, isSurrogate u = false) :
    characters text = text.map ([·]) := by
  induction text with
  | nil => rfl
  | cons u text ih =>
    obtain ⟨hu, htext⟩ := List.forall_mem_cons.1 h
    rw [characters_cons (Bool.or_eq_false_iff.1 hu).1, ih htext, List.map_cons]

/-- A character is a unit or made of surrogates. -/
theorem singleton_or_isSurrogate {text c : Text} (h : c ∈ characters text) :
    (∃ u, c = [u]) ∨ ∀ u ∈ c, isSurrogate u = true := by
  fun_induction characters text with
  | case1 => cases h
  | case2 u => exact .inl ⟨u, List.mem_singleton.1 h⟩
  | case3 u v rest pair ih =>
    rcases List.mem_cons.1 h with rfl | h
    · obtain ⟨high, low⟩ := Bool.and_eq_true_iff.1 pair
      exact .inr (by simp [isSurrogate, high, low])
    · exact ih h
  | case4 u v rest pair ih =>
    rcases List.mem_cons.1 h with rfl | h
    · exact .inl ⟨u, rfl⟩
    · exact ih h

/-- All characters are units with a property that no surrogate has exactly if all units have it. -/
theorem forall_characters_iff {P : UInt16 → Prop} (plain : ∀ u, P u → isSurrogate u = false)
    {text : Text} : (∀ c ∈ characters text, ∃ u, c = [u] ∧ P u) ↔ ∀ u ∈ text, P u := by
  constructor
  · intro h u hu
    rw [← flatten_characters text] at hu
    obtain ⟨c, hc, hu⟩ := List.mem_flatten.1 hu
    obtain ⟨v, rfl, hv⟩ := h c hc
    rwa [List.mem_singleton.1 hu]
  · intro h c hc
    rw [characters_eq_map fun u hu => plain u (h u hu)] at hc
    obtain ⟨u, hu, rfl⟩ := List.mem_map.1 hc
    exact ⟨u, rfl, h u hu⟩

/-! ### Characters of a string -/

theorem toNat_unit {c : Char} (h : c.toNat < 0x10000) : (unit c).toNat = c.toNat :=
  UInt16.toNat_ofNat_of_lt h

theorem isHighSurrogate_unit {c : Char} (h : c.toNat < 0x10000) :
    isHighSurrogate (unit c) = false := by
  have hvalid : c.toNat.isValidChar := c.valid
  simp only [Nat.isValidChar] at hvalid
  simp only [isHighSurrogate, toNat_unit h, Bool.and_eq_false_iff, decide_eq_false_iff_not]
  omega

theorem characters_ofChar_append (c : Char) (text : Text) :
    characters (ofChar c ++ text) = ofChar c :: characters text := by
  by_cases hc : c.toNat < 0x10000
  · rw [ofChar, if_pos hc, List.singleton_append, characters_cons (isHighSurrogate_unit hc)]
  · have hvalid : c.toNat.isValidChar := c.valid
    simp only [Nat.isValidChar] at hvalid
    have high : isHighSurrogate (UInt16.ofNat (0xD800 + (c.toNat - 0x10000) / 0x400)) = true := by
      simp only [isHighSurrogate, UInt16.toNat_ofNat', Bool.and_eq_true, decide_eq_true_eq]
      omega
    have low : isLowSurrogate (UInt16.ofNat (0xDC00 + (c.toNat - 0x10000) % 0x400)) = true := by
      simp only [isLowSurrogate, UInt16.toNat_ofNat', Bool.and_eq_true, decide_eq_true_eq]
      omega
    rw [ofChar, if_neg hc]
    show characters (_ :: _ :: text) = _
    rw [characters, high, low, Bool.true_and, if_pos rfl]

theorem toChar_ofChar (c : Char) : toChar (ofChar c) = c := by
  have hvalid : c.toNat.isValidChar := c.valid
  by_cases hc : c.toNat < 0x10000
  · rw [ofChar, if_pos hc, toChar, toNat_unit hc, if_pos hvalid, Char.ofNat_toNat]
  · simp only [Nat.isValidChar] at hvalid
    have joined :
        0x10000 + ((0xD800 + (c.toNat - 0x10000) / 0x400) % 2 ^ 16 - 0xD800) * 0x400 +
          ((0xDC00 + (c.toNat - 0x10000) % 0x400) % 2 ^ 16 - 0xDC00) = c.toNat := by omega
    rw [ofChar, if_neg hc]
    simp only [toChar, UInt16.toNat_ofNat']
    rw [joined, Char.ofNat_toNat]

theorem characters_ofString (s : String) : characters (ofString s) = s.toList.map ofChar := by
  rw [ofString]
  induction s.toList with
  | nil => rfl
  | cons c cs ih => rw [List.flatMap_cons, characters_ofChar_append, ih, List.map_cons]

/-- A string is printed as itself. -/
theorem printed_ofString (s : String) : printed (ofString s) = s := by
  rw [printed, characters_ofString, List.map_map]
  simp [Function.comp_def, toChar_ofChar]

@[simp] theorem ofString_inj {s t : String} : ofString s = ofString t ↔ s = t :=
  ⟨fun h => by rw [← printed_ofString s, h, printed_ofString], fun h => h ▸ rfl⟩

end Text

end Lambda94
