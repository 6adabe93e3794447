import Lambda94.Eval.Scalar
import Lambda94.Proofs.StringBody

/-!
# Strings that spell integers

A string spells the number that its characters write by their places in the string alphabet:
`Value.numberSpelled`.  From a string to an integer and back is the identity for the spellings of
numbers of 63 bits and for no other string (`Value.ofSpelling_bind_eq_ok_iff`): a number that wraps
has another spelling, a negative one has none, and a brace, which is taken for a digit, is in no
spelling.  The spellings have only characters of the alphabet and no leading zeros:
`Value.exists_spelling_iff`.
-/

namespace Lambda94

open Wire

namespace Value

/-- The number that a string spells in base 94, with the place values from the right. -/
def numberSpelled (s : Text) : Nat := Nat.ofDigits 94 (s.map (alphabet.idxOf ·)).reverse

/-- A string of the alphabet spells the number that its body writes. -/
theorem number_encodeString {s : Text} (h : ∀ u ∈ s, u ∈ alphabet) :
    number (encodeString s) = numberSpelled s := by
  rw [number, numberSpelled, encodeString, List.map_map]
  refine congrArg (fun ds : List Nat => Nat.ofDigits 94 ds.reverse) (List.map_congr_left ?_)
  intro u hu
  rw [Function.comp_apply, encodeUnit_of_mem (h u hu), place_charAt (idxOf_lt_base (h u hu))]

/-! ### From a string to an integer -/

theorem eval_stringToInt (s : Text) : UnaryOp.stringToInt.eval (.str s) = ofSpelling s := by
  show (pure s >>= ofSpelling : Except EvalError Value) = ofSpelling s
  exact pure_bind s ofSpelling

theorem ofSpelling_of_printable {s : Text} (h : ∀ u ∈ encodeString s, Printable u) :
    ofSpelling s = .ok (.int (wrap (number (encodeString s)))) := by
  rw [ofSpelling, decodeInteger_of_printable h]
  dsimp only
  rw [ofInt, wrap_wrap]

theorem ofSpelling_eq_error_iff {s : Text} {error : EvalError} :
    ofSpelling s = .error error ↔
      ∃ e, decodeInteger (encodeString s) = .error e ∧ error = .codec e := by
  rw [ofSpelling]
  cases decodeInteger (encodeString s) with
  | ok n => exact ⟨nofun, nofun⟩
  | error e =>
    constructor
    · intro h
      exact ⟨e, rfl, (Except.error.inj h).symm⟩
    · rintro ⟨_, ⟨⟩, rfl⟩
      rfl

/-- A string spells nothing exactly if a character of it is neither in the alphabet nor a brace. -/
theorem exists_ofSpelling_eq_error_iff {s : Text} :
    (∃ error, ofSpelling s = .error error) ↔
      ∃ c ∈ Text.characters s, c ∉ letters ∧ c ≠ "\x7b" ∧ c ≠ "\x7d" := by
  have refused : (∃ error, ofSpelling s = .error error) ↔
      ∃ error, decodeInteger (encodeString s) = .error error := by
    constructor
    · rintro ⟨error, h⟩
      obtain ⟨e, he, -⟩ := ofSpelling_eq_error_iff.1 h
      exact ⟨e, he⟩
    · rintro ⟨e, he⟩
      exact ⟨.codec e, ofSpelling_eq_error_iff.2 ⟨e, he, rfl⟩⟩
  have accepted := @forall_characters_printable (encodeString s)
  rw [characters_encodeString, List.forall_mem_map] at accepted
  simp only [printableChar_encodeString_iff] at accepted
  rw [refused, exists_decodeInteger_eq_error_iff, ← not_iff_not]
  push Not
  rw [← accepted]
  refine forall₂_congr fun c _ => ?_
  rw [or_iff_not_imp_left, or_iff_not_imp_left]

/-- The error names a character of the string, which is not in the alphabet. -/
theorem eq_invalidDigit_of_ofSpelling {s : Text} {error : EvalError}
    (h : ofSpelling s = .error error) :
    ∃ c ∈ Text.characters s, c ∉ letters ∧ error = .codec (.invalidDigit c (encodeString s)) := by
  obtain ⟨e, he, rfl⟩ := ofSpelling_eq_error_iff.1 h
  obtain ⟨c, hfind, rfl⟩ := decodeInteger_eq_error_iff.1 he
  have hnot := not_printableChar_of_unprintable? hfind
  have hmem := List.mem_of_find?_eq_some hfind
  rw [characters_encodeString] at hmem
  obtain ⟨d, hd, rfl⟩ := List.mem_map.1 hmem
  have hoff : d ∉ letters := fun h => hnot (printableChar_encodeString_iff.2 (.inl h))
  rw [encodeString_of_not_mem_letters hd hoff]
  exact ⟨d, hd, hoff, rfl⟩

/-! ### From an integer to a string -/

theorem spell_of_nonneg (k : Nat) : spell k = .str (decodeString (encodeNat k)) :=
  if_neg (Int.not_lt.2 (Int.natCast_nonneg k))

theorem spell_of_neg {n : Int} (h : n < 0) : spell n = .str [] := if_pos h

theorem encodeString_decodeString_encodeNat (k : Nat) :
    encodeString (decodeString (encodeNat k)) = encodeNat k :=
  encodeString_decodeString fun _ => printable_of_mem_encodeNat

/-- The spelling of a number of 63 bits spells it. -/
theorem ofSpelling_decodeString_encodeNat {k : Nat} (small : k < 2 ^ 63) :
    ofSpelling (decodeString (encodeNat k)) = .ok (.int k) := by
  have printable : ∀ u ∈ encodeString (decodeString (encodeNat k)), Printable u := by
    rw [encodeString_decodeString_encodeNat]
    exact fun u => printable_of_mem_encodeNat
  rw [ofSpelling_of_printable printable, encodeString_decodeString_encodeNat, number_encodeNat,
    wrap_natCast small]

theorem ofSpelling_empty : ofSpelling [] = .ok (.int 0) := by decide

/-! ### There and back -/

/-- A string comes back exactly if it is the spelling of a number of 63 bits. -/
theorem ofSpelling_bind_eq_ok_iff {s : Text} :
    (ofSpelling s >>= UnaryOp.intToString.eval) = .ok (.str s) ↔
      ∃ k : Nat, k < 2 ^ 63 ∧ decodeString (encodeNat k) = s := by
  constructor
  · intro h
    by_cases printable : ∀ u ∈ encodeString s, Printable u
    · have hback : spell (wrap (number (encodeString s))) = .str s := by
        rw [ofSpelling_of_printable printable] at h
        exact Except.ok.inj h
      by_cases hneg : wrap (number (encodeString s)) < 0
      · -- A negative number has no characters, and no characters spell zero.
        rw [spell_of_neg hneg] at hback
        obtain rfl := Value.str.inj hback
        exact absurd hneg (by decide)
      · obtain ⟨k, hk⟩ := Int.eq_ofNat_of_zero_le (Int.not_lt.1 hneg)
        have upper := wrap_upper (number (encodeString s))
        rw [hk] at hback upper
        rw [spell_of_nonneg] at hback
        exact ⟨k, by omega, Value.str.inj hback⟩
    · have hfails : ∃ error, decodeInteger (encodeString s) = .error error :=
        exists_decodeInteger_eq_error_iff.2 (by push Not at printable; exact printable)
      obtain ⟨error, herror⟩ := hfails
      rw [ofSpelling_eq_error_iff.2 ⟨error, herror, rfl⟩] at h
      cases h
  · rintro ⟨k, small, rfl⟩
    rw [ofSpelling_decodeString_encodeNat small]
    exact congrArg Except.ok (spell_of_nonneg k)

theorem decodeUnit_zero : decodeUnit (Text.unit '!') = Text.unit 'a' := by decide

theorem decodeString_zero : decodeString "!" = Text.ofString "a" := by decide

/-- The first digit is zero exactly if the first character is the first of the alphabet. -/
theorem head?_encodeString_iff {s : Text} (h : ∀ u ∈ s, u ∈ alphabet) :
    (encodeString s).head? = some (Text.unit '!') ↔ s.head? = some (Text.unit 'a') := by
  have hfirst : encodeUnit (Text.unit 'a') = Text.unit '!' :=
    decodeUnit_zero ▸ encodeUnit_decodeUnit (by decide)
  rw [encodeString, List.head?_map, Option.map_eq_some_iff]
  constructor
  · rintro ⟨u, hu, hdigit⟩
    rw [hu, ← decodeUnit_zero, ← hdigit, decodeUnit_encodeUnit (h u (List.mem_of_mem_head? hu))]
  · intro hu
    exact ⟨Text.unit 'a', hu, hfirst⟩

/-- The spellings of numbers of 63 bits. -/
theorem exists_spelling_iff {s : Text} :
    (∃ k : Nat, k < 2 ^ 63 ∧ decodeString (encodeNat k) = s) ↔
      (∀ c ∈ Text.characters s, c ∈ letters) ∧ s ≠ [] ∧
        (s.head? = some (Text.unit 'a') → s = "a") ∧ numberSpelled s < 2 ^ 63 := by
  rw [forall_characters_mem_letters]
  constructor
  · rintro ⟨k, small, rfl⟩
    have inAlphabet : ∀ u ∈ decodeString (encodeNat k), u ∈ alphabet := by
      intro u hu
      obtain ⟨v, hv, rfl⟩ := List.mem_map.1 hu
      exact decodeUnit_mem (printable_of_mem_encodeNat hv)
    have hbody := encodeString_decodeString_encodeNat k
    refine ⟨inAlphabet, fun hempty => ?_, fun hhead => ?_, ?_⟩
    · rw [hempty] at hbody
      exact encodeNat_ne_nil k (hbody ▸ rfl)
    · rw [← head?_encodeString_iff inAlphabet, hbody] at hhead
      rw [encodeNat_eq_of_head? hhead, decodeString_zero]
    · rwa [← number_encodeString inAlphabet, hbody, number_encodeNat]
  · rintro ⟨inAlphabet, hne, hlead, small⟩
    by_cases hhead : s.head? = some (Text.unit 'a')
    · refine ⟨0, by decide, ?_⟩
      rw [encodeNat_zero, decodeString_zero, hlead hhead]
    · have hnil : encodeString s ≠ [] := by
        rw [encodeString, ne_eq, List.map_eq_nil_iff]
        exact hne
      have hdigit := (head?_encodeString_iff inAlphabet).not.2 hhead
      refine ⟨numberSpelled s, small, ?_⟩
      rw [← number_encodeString inAlphabet,
        encodeNat_number (printable_of_mem_encodeString inAlphabet),
        stripZeros_of_head? hdigit hnil, decodeString_encodeString inAlphabet]

end Value

open Value

/-! ### Main result -/

/-- From an integer of 64 bits to a string and back is the identity for integers that are not
negative, and zero for the others.  From a string to an integer and back succeeds with the string
exactly if it is not empty, has only characters of the alphabet and no leading zero, which is the
letter `a`, unless it is that letter alone, and spells a number below `2 ^ 63`.  The first way fails
exactly if a character is neither in the alphabet nor a brace, with an error that names such a
character as an invalid digit. -/
theorem spelling_invertible :
    (∀ n : Int, -2 ^ 63 ≤ n → n < 2 ^ 63 →
      (UnaryOp.intToString.eval (.int n) >>= UnaryOp.stringToInt.eval) =
        .ok (.int (if 0 ≤ n then n else 0))) ∧
    ∀ s : Text,
      ((UnaryOp.stringToInt.eval (.str s) >>= UnaryOp.intToString.eval) = .ok (.str s) ↔
        (∀ c ∈ Text.characters s, c ∈ letters) ∧ s ≠ [] ∧
          (s.head? = some (Text.unit 'a') → s = "a") ∧ numberSpelled s < 2 ^ 63) ∧
      ((∃ error, UnaryOp.stringToInt.eval (.str s) = .error error) ↔
        ∃ c ∈ Text.characters s, c ∉ letters ∧ c ≠ "\x7b" ∧ c ≠ "\x7d") ∧
      ∀ error, UnaryOp.stringToInt.eval (.str s) = .error error →
        ∃ c ∈ Text.characters s, c ∉ letters ∧
          error = .codec (.invalidDigit c (encodeString s)) := by
  refine ⟨fun n _ upper => ?_, fun s => ?_⟩
  · show (UnaryOp.stringToInt.eval (spell n)) = _
    split_ifs with hsign
    · obtain ⟨k, rfl⟩ := Int.eq_ofNat_of_zero_le hsign
      rw [spell_of_nonneg, eval_stringToInt]
      exact ofSpelling_decodeString_encodeNat (by omega)
    · rw [spell_of_neg (Int.not_le.1 hsign), eval_stringToInt, ofSpelling_empty]
  · rw [eval_stringToInt]
    exact ⟨ofSpelling_bind_eq_ok_iff.trans exists_spelling_iff, exists_ofSpelling_eq_error_iff,
      fun _ => eq_invalidDigit_of_ofSpelling⟩

/-- The largest integer of 64 bits and a negative one; a word that comes back; a brace that is taken
for a digit and does not; and an accent that is no digit. -/
theorem spelling_invertible_braces :
    (UnaryOp.intToString.eval (.int (2 ^ 63 - 1)) >>= UnaryOp.stringToInt.eval) =
      .ok (.int (2 ^ 63 - 1)) ∧
    (UnaryOp.intToString.eval (.int (-5)) >>= UnaryOp.stringToInt.eval) = .ok (.int 0) ∧
    (UnaryOp.stringToInt.eval (.str "test") >>= UnaryOp.intToString.eval) = .ok (.str "test") ∧
    UnaryOp.stringToInt.eval (.str "b\x7b") = .ok (.int 184) ∧
    (UnaryOp.stringToInt.eval (.str "b\x7b") >>= UnaryOp.intToString.eval) ≠ .ok (.str "b\x7b") ∧
    (∃ error, UnaryOp.stringToInt.eval (.str "b\x7bé") = .error error) := by
  obtain ⟨integers, strings⟩ := spelling_invertible
  have largest := integers (2 ^ 63 - 1) (by decide) (by decide)
  have negative := integers (-5) (by decide) (by decide)
  rw [if_pos (by decide)] at largest
  rw [if_neg (by decide)] at negative
  obtain ⟨there, -, -⟩ := strings "test"
  obtain ⟨back, -, -⟩ := strings "b\x7b"
  obtain ⟨-, fails, -⟩ := strings "b\x7bé"
  have value : numberSpelled "test" = 15818151 := by decide +kernel
  have spells : UnaryOp.stringToInt.eval (.str "b\x7b") = .ok (.int 184) := by decide +kernel
  refine ⟨largest, negative, there.2 ⟨by decide, by decide, by decide, ?_⟩, spells, fun h => ?_,
    fails.2 ⟨"é", by decide, by decide, by decide, by decide⟩⟩
  · rw [value]
    decide
  · exact absurd ((back.1 h).1 "\x7b" (by decide)) (by decide)

end Lambda94
