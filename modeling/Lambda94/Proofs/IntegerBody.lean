import Lambda94.Wire.Integer
import Mathlib.Data.Nat.Digits.Lemmas

/-!
# Integer bodies as a positional code

A body of printable characters writes a number in base 94, each character by its place among them:
`Wire.number`.  Any other body is refused, because of the first character that is not printable:
`Wire.decodeInteger_eq`.  What is read is that number, wrapped to 64 bits, and what is written of it
is the body without its leading zeros: `Wire.encodeNat_number`.
-/

namespace Lambda94

/-! ### Numerals -/

namespace Numeral

theorem value_eq_ofDigits (b : Nat) (ds : List Nat) : value b ds = Nat.ofDigits b ds.reverse := by
  induction ds using List.reverseRecOn with
  | nil => rfl
  | append_singleton ds d ih =>
    rw [value_concat, ih, List.reverse_concat, Nat.ofDigits_cons]
    ring

theorem digits_eq_reverse {b n : Nat} (hb : 2 ≤ b) (hn : n ≠ 0) :
    digits b n = (Nat.digits b n).reverse := by
  induction n using Nat.strongRecOn with
  | ind n ih =>
    have hdigits : Nat.digits b n = n % b :: Nat.digits b (n / b) :=
      Nat.digits_def' hb (Nat.pos_of_ne_zero hn)
    by_cases hlt : n < b
    · rw [digits_of_lt hlt, Nat.digits_of_lt b n hn hlt, List.reverse_singleton]
    · have hle : b ≤ n := Nat.le_of_not_lt hlt
      have hquotient : n / b ≠ 0 := (Nat.div_pos hle (by omega)).ne'
      have hsmaller : n / b < n := Nat.div_lt_self (by omega) (by omega)
      rw [digits_of_le hb hle, hdigits, List.reverse_cons, ih _ hsmaller hquotient]

theorem head?_digits_ne_zero {b n : Nat} (hb : 2 ≤ b) (hn : n ≠ 0) :
    (digits b n).head? ≠ some 0 := by
  have hne : Nat.digits b n ≠ [] := Nat.digits_ne_nil_iff_ne_zero.2 hn
  rw [digits_eq_reverse hb hn, List.head?_reverse, List.getLast?_eq_getLast_of_ne_nil hne]
  exact fun h => Nat.getLast_digit_ne_zero b hn (Option.some.inj h)

/-- Digits without a leading zero are the digits of their value. -/
theorem digits_value {b d : Nat} (hb : 2 ≤ b) {ds : List Nat} (small : ∀ e ∈ d :: ds, e < b)
    (hd : d ≠ 0) : digits b (value b (d :: ds)) = d :: ds := by
  rw [digits_eq_reverse hb (value_pos hb hd ds).ne', value_eq_ofDigits,
    Nat.digits_ofDigits b hb _ (fun e he => small e (List.mem_reverse.1 he)),
    List.reverse_reverse]
  intro hne
  rwa [List.getLast_reverse, List.head_cons]

end Numeral

namespace Wire

/-! ### Printable characters -/

/-- The unit is one of the 94 digits. -/
def Printable (u : UInt16) : Prop := 33 ≤ u.toNat ∧ u.toNat ≤ 126

instance : DecidablePred Printable := fun u =>
  inferInstanceAs (Decidable (33 ≤ u.toNat ∧ u.toNat ≤ 126))

/-- The character is one of the 94 digits, and so a unit by itself. -/
def PrintableChar (c : Text) : Prop := ∃ u, c = [u] ∧ Printable u

theorem printableChar_singleton {u : UInt16} : PrintableChar [u] ↔ Printable u := by
  constructor
  · rintro ⟨_, ⟨⟩, h⟩
    exact h
  · exact fun h => ⟨u, rfl, h⟩

instance : DecidablePred PrintableChar
  | [] => .isFalse nofun
  | [u] => decidable_of_iff (Printable u) printableChar_singleton.symm
  | _ :: _ :: _ => .isFalse nofun

/-- The value of a digit. -/
def place (u : UInt16) : Nat := u.toNat - 33

theorem digit?_of_printable {u : UInt16} (h : Printable u) : digit? u = some (place u) := by
  have hdigit : offset ≤ u.toNat ∧ u.toNat < offset + base := ⟨h.1, Nat.lt_succ_of_le h.2⟩
  rw [digit?, if_pos hdigit]
  rfl

theorem digit?_of_not_printable {u : UInt16} (h : ¬ Printable u) : digit? u = none :=
  if_neg fun hdigit => h ⟨hdigit.1, Nat.le_of_lt_succ hdigit.2⟩

theorem digitValue?_of_not_printable {c : Text} (h : ¬ PrintableChar c) : digitValue? c = none := by
  unfold digitValue?
  split
  · exact digit?_of_not_printable (mt printableChar_singleton.2 h)
  · rfl

theorem place_lt {u : UInt16} (h : Printable u) : place u < base :=
  lt_of_digit?_eq_some (digit?_of_printable h)

theorem charAt_place {u : UInt16} (h : Printable u) : charAt (place u) = u :=
  charAt_of_digit?_eq_some (digit?_of_printable h)

theorem printable_charAt {d : Nat} (h : d < base) : Printable (charAt d) := by
  by_contra hu
  have hdigit := digit?_charAt h
  rw [digit?_of_not_printable hu] at hdigit
  cases hdigit

theorem place_charAt {d : Nat} (h : d < base) : place (charAt d) = d := by
  have hdigit := digit?_charAt h
  rw [digit?_of_printable (printable_charAt h)] at hdigit
  exact Option.some.inj hdigit

theorem place_eq_zero_iff {u : UInt16} (h : Printable u) : place u = 0 ↔ u = Text.unit '!' := by
  constructor
  · intro hu
    rw [← charAt_place h, hu]
    decide
  · rintro rfl
    rfl

theorem not_isSurrogate_of_printable {u : UInt16} (h : Printable u) :
    Text.isSurrogate u = false := by
  obtain ⟨-, above⟩ := h
  simp only [Text.isSurrogate, Text.isHighSurrogate, Text.isLowSurrogate, Bool.or_eq_false_iff,
    Bool.and_eq_false_iff, decide_eq_false_iff_not]
  omega

/-- The characters of a body are printable exactly if its units are. -/
theorem forall_characters_printable {body : Text} :
    (∀ c ∈ Text.characters body, PrintableChar c) ↔ ∀ u ∈ body, Printable u :=
  Text.forall_characters_iff fun _ => not_isSurrogate_of_printable

/-! ### Reading -/

/-- The number that a body writes in base 94, with the place values from the right. -/
def number (body : Text) : Nat := Nat.ofDigits 94 (body.map place).reverse

theorem number_eq_value (body : Text) : number body = Numeral.value base (body.map place) :=
  (Numeral.value_eq_ofDigits base _).symm

/-- The first character of a body that is not printable. -/
def unprintable? (body : Text) : Option Text :=
  (Text.characters body).find? fun c => ¬ PrintableChar c

theorem unprintable?_eq_none_iff {body : Text} :
    unprintable? body = none ↔ ∀ u ∈ body, Printable u := by
  rw [← forall_characters_printable, unprintable?, List.find?_eq_none]
  simp

theorem not_printableChar_of_unprintable? {body c : Text} (h : unprintable? body = some c) :
    ¬ PrintableChar c := by
  simpa using List.find?_some h

theorem bodyDigits_eq (body : Text) :
    bodyDigits body =
      match unprintable? body with
      | some c => .error (.invalidDigit c body)
      | none => .ok (body.map place) := by
  have units : body.map place = (Text.characters body).flatten.map place := by
    rw [Text.flatten_characters]
  rw [units]
  unfold bodyDigits unprintable?
  -- The body that an error names stays the same while its characters are read.
  generalize Text.characters body = cs
  induction cs with
  | nil => rfl
  | cons c cs ih =>
    rw [List.mapM_cons]
    by_cases hc : PrintableChar c
    · rw [ih, List.find?_cons_of_neg (by simpa using hc)]
      obtain ⟨u, rfl, printable⟩ := hc
      rw [digitValue?, digit?_of_printable printable]
      cases cs.find? fun c => ¬ PrintableChar c <;> rfl
    · rw [digitValue?_of_not_printable hc, List.find?_cons_of_pos (by simpa using hc)]
      rfl

/-- Reading a body. -/
theorem decodeInteger_eq (body : Text) :
    decodeInteger body =
      match unprintable? body with
      | some c => .error (.invalidDigit c body)
      | none => .ok (wrap (number body)) := by
  rw [decodeInteger, bodyDigits_eq, number_eq_value]
  cases unprintable? body <;> rfl

theorem decodeInteger_of_printable {body : Text} (h : ∀ u ∈ body, Printable u) :
    decodeInteger body = .ok (wrap (number body)) := by
  rw [decodeInteger_eq, unprintable?_eq_none_iff.2 h]

/-- A body is refused because of a character that is not printable. -/
theorem decodeInteger_eq_error_iff {body : Text} {error : CodecError} :
    decodeInteger body = .error error ↔
      ∃ c, unprintable? body = some c ∧ error = .invalidDigit c body := by
  rw [decodeInteger_eq]
  cases unprintable? body with
  | none => exact ⟨nofun, nofun⟩
  | some c =>
    constructor
    · intro h
      exact ⟨c, rfl, (Except.error.inj h).symm⟩
    · rintro ⟨_, ⟨⟩, rfl⟩
      rfl

theorem exists_decodeInteger_eq_error_iff {body : Text} :
    (∃ error, decodeInteger body = .error error) ↔ ∃ u ∈ body, ¬ Printable u := by
  rw [← not_iff_not, not_exists]
  push Not
  rw [← unprintable?_eq_none_iff, decodeInteger_eq]
  cases unprintable? body with
  | none => exact iff_of_true nofun rfl
  | some c => exact iff_of_false (fun h => h _ rfl) nofun

/-! ### Writing -/

theorem lt_base_of_mem_digits {n d : Nat} (h : d ∈ Numeral.digits base n) : d < base :=
  Numeral.lt_of_mem_digits (by decide) h

theorem printable_of_mem_encodeNat {n : Nat} {u : UInt16} (h : u ∈ encodeNat n) : Printable u := by
  obtain ⟨d, hd, rfl⟩ := List.mem_map.1 h
  exact printable_charAt (lt_base_of_mem_digits hd)

theorem encodeNat_ne_nil (n : Nat) : encodeNat n ≠ [] := by
  simp [encodeNat, Numeral.digits_ne_nil]

/-- What is written of a number writes it. -/
theorem number_encodeNat (n : Nat) : number (encodeNat n) = n := by
  have hplaces : (encodeNat n).map place = Numeral.digits base n := by
    rw [encodeNat, List.map_map]
    exact (List.map_congr_left fun d hd => place_charAt (lt_base_of_mem_digits hd)).trans
      (List.map_id _)
  rw [number_eq_value, hplaces, Numeral.value_digits (by decide)]

theorem encodeNat_zero : encodeNat 0 = "!" := by
  rw [encodeNat, Numeral.digits_of_lt (by decide)]
  decide

/-- The body of a natural number is read as that number, wrapped to 64 bits. -/
theorem decodeInteger_encodeNat (n : Nat) : decodeInteger (encodeNat n) = .ok (wrap n) := by
  rw [decodeInteger_of_printable fun u => printable_of_mem_encodeNat, number_encodeNat]

/-- Only zero is written with a leading zero. -/
theorem encodeNat_eq_of_head? {n : Nat} (h : (encodeNat n).head? = some (Text.unit '!')) :
    encodeNat n = "!" := by
  by_cases hn : n = 0
  · rw [hn, encodeNat_zero]
  · rw [encodeNat, List.head?_map, Option.map_eq_some_iff] at h
    obtain ⟨d, hd, hu⟩ := h
    have hlt := lt_base_of_mem_digits (List.mem_of_mem_head? hd)
    have hzero : d = 0 := by rw [← place_charAt hlt, hu]; rfl
    exact absurd (hzero ▸ hd) (Numeral.head?_digits_ne_zero (by decide) hn)

/-! ### Writing what was read -/

/-- A body without its leading zeros; of zeros alone, one is left. -/
def stripZeros (body : Text) : Text :=
  match body.dropWhile (· = Text.unit '!') with
  | [] => "!"
  | rest => rest

theorem stripZeros_of_head? {body : Text} (h : body.head? ≠ some (Text.unit '!'))
    (hne : body ≠ []) : stripZeros body = body := by
  obtain ⟨u, rest, rfl⟩ := List.exists_cons_of_ne_nil hne
  rw [List.head?_cons, ne_eq, Option.some.injEq] at h
  rw [stripZeros, List.dropWhile_cons_of_neg (by simpa using h)]

theorem encodeNat_number {body : Text} (h : ∀ u ∈ body, Printable u) :
    encodeNat (number body) = stripZeros body := by
  rw [number_eq_value, stripZeros, encodeNat]
  induction body with
  | nil => exact encodeNat_zero
  | cons u body ih =>
    obtain ⟨hu, hbody⟩ := List.forall_mem_cons.1 h
    by_cases hzero : u = Text.unit '!'
    · rw [List.map_cons, (place_eq_zero_iff hu).2 hzero, Numeral.value_zero_cons,
        List.dropWhile_cons_of_pos (by simpa using hzero), ih hbody]
    · have hplace : place u ≠ 0 := fun hplace => hzero ((place_eq_zero_iff hu).1 hplace)
      have hsmall : ∀ e ∈ (u :: body).map place, e < base := by
        intro e he
        obtain ⟨v, hmem, rfl⟩ := List.mem_map.1 he
        exact place_lt (h v hmem)
      have hback : ((u :: body).map place).map (fun (d : Nat) => charAt d) = u :: body := by
        rw [List.map_map]
        exact (List.map_congr_left fun v hmem => charAt_place (h v hmem)).trans (List.map_id _)
      rw [List.dropWhile_cons_of_neg (by simpa using hzero)]
      rw [List.map_cons] at hsmall hback ⊢
      rw [Numeral.digits_value (by decide) hsmall hplace, hback]

theorem encodeInteger_of_nonneg {n : Int} (h : 0 ≤ n) :
    encodeInteger n = .ok (encodeNat n.toNat) := if_neg (Int.not_lt.2 h)

/-- A number of 63 bits is not changed by wrapping. -/
theorem wrap_natCast {n : Nat} (h : n < 2 ^ 63) : wrap n = n := wrap_eq_self (by omega) (by omega)

end Wire

open Wire

/-! ### Main result -/

/-- Every integer that is not negative is written as printable characters, without a leading zero
except for zero itself; the body writes just that integer, and is read as it, wrapped to 64 bits.
A body is refused exactly if a character is not printable.  Every other body is read as the number
that it writes, wrapped to 64 bits; and if the number has 63 bits, what is written of it again is
the body without its leading zeros. -/
theorem integerBody_positional :
    (∀ n : Int, 0 ≤ n → ∃ body, encodeInteger n = .ok body ∧ body ≠ [] ∧
      (∀ u ∈ body, Printable u) ∧ (body.head? = some (Text.unit '!') → body = "!") ∧
      (number body : Int) = n ∧ decodeInteger body = .ok (wrap n) ∧
      (n < 2 ^ 63 → decodeInteger body = .ok n)) ∧
    ∀ body : Text,
      ((∃ error, decodeInteger body = .error error ∧ error.kind = "InvalidDigit") ↔
        ∃ c ∈ Text.characters body, ¬ PrintableChar c) ∧
      ((∀ c ∈ Text.characters body, PrintableChar c) →
        decodeInteger body = .ok (wrap (number body)) ∧
        (number body < 2 ^ 63 →
          (decodeInteger body >>= encodeInteger) = .ok (stripZeros body))) := by
  refine ⟨fun n hn => ?_, fun body => ⟨?_, fun printable => ?_⟩⟩
  · obtain ⟨k, rfl⟩ := Int.eq_ofNat_of_zero_le hn
    refine ⟨encodeNat k, encodeInteger_of_nonneg hn, encodeNat_ne_nil k,
      fun u => printable_of_mem_encodeNat, encodeNat_eq_of_head?, congrArg _ (number_encodeNat k),
      decodeInteger_encodeNat k, fun small => ?_⟩
    rw [decodeInteger_encodeNat, wrap_natCast (by omega)]
  · have refused := @exists_decodeInteger_eq_error_iff body
    have same := not_iff_not.2 (@forall_characters_printable body)
    push Not at same
    rw [same, ← refused]
    refine exists_congr fun error => and_iff_left_of_imp fun h => ?_
    obtain ⟨c, -, rfl⟩ := decodeInteger_eq_error_iff.1 h
    rfl
  · rw [forall_characters_printable] at printable
    have hread := decodeInteger_of_printable printable
    refine ⟨hread, fun small => ?_⟩
    rw [hread, wrap_natCast small, ← encodeNat_number printable]
    exact encodeInteger_of_nonneg (Int.natCast_nonneg _)

/-- The least integer that wraps to a negative one; a body with leading zeros, whose number has 63
bits; and zeros alone. -/
theorem integerBody_positional_zeros :
    (∃ body, encodeInteger (2 ^ 63) = .ok body ∧ decodeInteger body = .ok (-2 ^ 63)) ∧
    decodeInteger "!!\"~" = .ok 187 ∧
    (decodeInteger "!!\"~" >>= encodeInteger) = .ok ↑"\"~" ∧
    (decodeInteger "!!" >>= encodeInteger) = .ok ↑"!" := by
  have value : number "!!\"~" = 187 := by decide
  have valueZero : number "!!" = 0 := by decide
  obtain ⟨written, read⟩ := integerBody_positional
  obtain ⟨body, hbody, -, -, -, -, hback, -⟩ := written (2 ^ 63) (by decide)
  obtain ⟨hnumber, hagain⟩ := (read "!!\"~").2 (by decide)
  obtain ⟨-, hzero⟩ := (read "!!").2 (by decide)
  rw [value] at hnumber hagain
  rw [valueZero] at hzero
  exact ⟨⟨body, hbody, hback⟩, hnumber, hagain (by decide), hzero (by decide)⟩

end Lambda94
