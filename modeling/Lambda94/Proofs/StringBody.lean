import Lambda94.Proofs.IntegerBody
import Lambda94.Wire.Cipher
import Lambda94.Wire.Token
import Mathlib.Data.Set.Function

/-!
# String bodies as a substitution cipher

The string alphabet has the space and the line feed in place of the braces, which are printable:
`Wire.mem_alphabet_iff`.  So reading undoes writing except for the braces, and writing undoes
reading except for the space and the line feed, unit by unit:
`Wire.decodeUnit_encodeUnit_iff` and `Wire.encodeUnit_decodeUnit_iff`.  Nothing is lost in the body
of a token, which has no blanks.
-/

namespace Lambda94

namespace Wire

/-! ### Units -/

/-- The units of the string alphabet. -/
theorem map_toNat_alphabet :
    alphabet.map UInt16.toNat =
      List.range' 97 26 ++ List.range' 65 26 ++ List.range' 48 10 ++ List.range' 33 15 ++
        List.range' 58 7 ++ List.range' 91 6 ++ [124, 126, 32, 10] := by
  decide +kernel

theorem mem_alphabet_iff {u : UInt16} :
    u ∈ alphabet ↔
      (Printable u ∧ u ≠ Text.unit '{' ∧ u ≠ Text.unit '}') ∨
        u = Text.unit ' ' ∨ u = Text.unit '\n' := by
  have hcode : u ∈ alphabet ↔ u.toNat ∈ alphabet.map UInt16.toNat := by
    simp only [List.mem_map, UInt16.toNat_inj, exists_eq_right]
  have opening : (Text.unit '{').toNat = 123 := rfl
  have closing : (Text.unit '}').toNat = 125 := rfl
  have space : (Text.unit ' ').toNat = 32 := rfl
  have line : (Text.unit '\n').toNat = 10 := rfl
  rw [hcode, map_toNat_alphabet]
  simp only [List.mem_append, List.mem_range'_1, List.mem_cons, List.not_mem_nil, or_false,
    Printable, ne_eq, ← UInt16.toNat_inj, opening, closing, space, line]
  omega

theorem not_isSurrogate_of_mem_alphabet {u : UInt16} (h : u ∈ alphabet) :
    Text.isSurrogate u = false := by
  have none : alphabet.any Text.isSurrogate = false := by decide +kernel
  exact eq_false_of_ne_true (List.any_eq_false.1 none u h)

theorem encodeUnit_of_mem {u : UInt16} (h : u ∈ alphabet) :
    encodeUnit u = charAt (alphabet.idxOf u) := by
  obtain ⟨p, hp⟩ := Option.isSome_iff_exists.1 (List.isSome_idxOf?.2 h)
  rw [encodeUnit, hp, List.idxOf_eq_getD_idxOf?, hp, Option.getD_some]

theorem encodeUnit_of_not_mem {u : UInt16} (h : u ∉ alphabet) : encodeUnit u = u := by
  rw [encodeUnit, List.idxOf?_eq_none_iff.2 h]

theorem idxOf_lt_base {u : UInt16} (h : u ∈ alphabet) : alphabet.idxOf u < base :=
  (List.idxOf_lt_length_of_mem h).trans_eq length_alphabet

theorem printable_encodeUnit {u : UInt16} (h : u ∈ alphabet) : Printable (encodeUnit u) := by
  rw [encodeUnit_of_mem h]
  exact printable_charAt (idxOf_lt_base h)

theorem printable_encodeUnit_iff {u : UInt16} :
    Printable (encodeUnit u) ↔ u ∈ alphabet ∨ u = Text.unit '{' ∨ u = Text.unit '}' := by
  by_cases hmem : u ∈ alphabet
  · exact iff_of_true (printable_encodeUnit hmem) (.inl hmem)
  · rw [encodeUnit_of_not_mem hmem, or_iff_right hmem]
    constructor
    · intro printable
      by_contra hbraces
      rw [not_or] at hbraces
      exact hmem (mem_alphabet_iff.2 (.inl ⟨printable, hbraces⟩))
    · rintro (rfl | rfl)
      · decide
      · decide

theorem decodeUnit_of_not_printable {u : UInt16} (h : ¬ Printable u) : decodeUnit u = u := by
  rw [decodeUnit, digit?_of_not_printable h]

theorem decodeUnit_of_printable {u : UInt16} (h : Printable u) :
    alphabet[place u]? = some (decodeUnit u) := by
  have hlt : place u < alphabet.length := (place_lt h).trans_eq length_alphabet.symm
  rw [decodeUnit, digit?_of_printable h]
  dsimp only
  rw [List.getD_eq_getElem?_getD, List.getElem?_eq_getElem hlt, Option.getD_some]

theorem decodeUnit_mem {u : UInt16} (h : Printable u) : decodeUnit u ∈ alphabet :=
  List.mem_of_getElem? (decodeUnit_of_printable h)

/-- Reading undoes writing for every character but the braces. -/
theorem decodeUnit_encodeUnit_iff {u : UInt16} :
    decodeUnit (encodeUnit u) = u ↔ u ≠ Text.unit '{' ∧ u ≠ Text.unit '}' := by
  by_cases hmem : u ∈ alphabet
  · have hbraces : u ≠ Text.unit '{' ∧ u ≠ Text.unit '}' := by
      rcases mem_alphabet_iff.1 hmem with ⟨-, h⟩ | rfl | rfl
      · exact h
      · decide
      · decide
    exact iff_of_true (decodeUnit_encodeUnit hmem) hbraces
  · rw [encodeUnit_of_not_mem hmem]
    have hnot := mem_alphabet_iff.not.1 hmem
    by_cases printable : Printable u
    · refine iff_of_false (fun h => hmem (h ▸ decodeUnit_mem printable)) fun hbraces => ?_
      exact hnot (.inl ⟨printable, hbraces⟩)
    · refine iff_of_true (decodeUnit_of_not_printable printable) ⟨?_, ?_⟩
      · rintro rfl
        exact printable (by decide)
      · rintro rfl
        exact printable (by decide)

/-- Writing undoes reading for every printable character. -/
theorem encodeUnit_decodeUnit {u : UInt16} (h : Printable u) : encodeUnit (decodeUnit u) = u := by
  obtain ⟨hlt, hget⟩ := List.getElem?_eq_some_iff.1 (decodeUnit_of_printable h)
  rw [encodeUnit_of_mem (decodeUnit_mem h), ← hget, nodup_alphabet.idxOf_getElem, charAt_place h]

/-- Writing undoes reading for every character but the space and the line feed. -/
theorem encodeUnit_decodeUnit_iff {u : UInt16} :
    encodeUnit (decodeUnit u) = u ↔ u ≠ Text.unit ' ' ∧ u ≠ Text.unit '\n' := by
  by_cases printable : Printable u
  · refine iff_of_true (encodeUnit_decodeUnit printable) ⟨?_, ?_⟩
    · rintro rfl
      exact absurd printable (by decide)
    · rintro rfl
      exact absurd printable (by decide)
  · rw [decodeUnit_of_not_printable printable]
    by_cases hmem : u ∈ alphabet
    · refine iff_of_false (fun h => printable (h ▸ printable_encodeUnit hmem)) fun hspaces => ?_
      rcases mem_alphabet_iff.1 hmem with ⟨h, -⟩ | h | h
      · exact printable h
      · exact hspaces.1 h
      · exact hspaces.2 h
    · refine iff_of_true (encodeUnit_of_not_mem hmem) ⟨fun h => ?_, fun h => ?_⟩
      · exact hmem (mem_alphabet_iff.2 (.inr (.inl h)))
      · exact hmem (mem_alphabet_iff.2 (.inr (.inr h)))

/-! ### Strings -/

theorem map_eq_self_iff {s : Text} {f : UInt16 → UInt16} : s.map f = s ↔ ∀ u ∈ s, f u = u :=
  ⟨fun h u hu => List.map_eq_map_iff.1 (h.trans (List.map_id _).symm) u hu,
    fun h => (List.map_congr_left h).trans (List.map_id _)⟩

theorem mem_letters_iff {c : Text} : c ∈ letters ↔ ∃ u, c = [u] ∧ u ∈ alphabet := by
  rw [letters, List.mem_map]
  exact exists_congr fun u => and_comm.trans (and_congr_left' eq_comm)

/-- The characters of a string are in the alphabet exactly if its units are. -/
theorem forall_characters_mem_letters {s : Text} :
    (∀ c ∈ Text.characters s, c ∈ letters) ↔ ∀ u ∈ s, u ∈ alphabet := by
  simp only [mem_letters_iff]
  exact Text.forall_characters_iff fun _ => not_isSurrogate_of_mem_alphabet

theorem printableChar_encodeString_iff {c : Text} :
    PrintableChar (encodeString c) ↔ c ∈ letters ∨ c = "\x7b" ∨ c = "\x7d" := by
  rw [mem_letters_iff]
  constructor
  · rintro ⟨v, hv, printable⟩
    obtain ⟨u, rfl, rfl⟩ := List.map_eq_singleton_iff.1 hv
    rcases printable_encodeUnit_iff.1 printable with hu | rfl | rfl
    · exact .inl ⟨u, rfl, hu⟩
    · exact .inr (.inl rfl)
    · exact .inr (.inr rfl)
  · rintro (⟨u, rfl, hu⟩ | rfl | rfl)
    · exact printableChar_singleton.2 (printable_encodeUnit hu)
    · decide
    · decide

theorem isHighSurrogate_encodeUnit (u : UInt16) :
    Text.isHighSurrogate (encodeUnit u) = Text.isHighSurrogate u := by
  by_cases hu : u ∈ alphabet
  · rw [(Bool.or_eq_false_iff.1 (not_isSurrogate_of_mem_alphabet hu)).1,
      (Bool.or_eq_false_iff.1 (not_isSurrogate_of_printable (printable_encodeUnit hu))).1]
  · rw [encodeUnit_of_not_mem hu]

theorem isLowSurrogate_encodeUnit (u : UInt16) :
    Text.isLowSurrogate (encodeUnit u) = Text.isLowSurrogate u := by
  by_cases hu : u ∈ alphabet
  · rw [(Bool.or_eq_false_iff.1 (not_isSurrogate_of_mem_alphabet hu)).2,
      (Bool.or_eq_false_iff.1 (not_isSurrogate_of_printable (printable_encodeUnit hu))).2]
  · rw [encodeUnit_of_not_mem hu]

/-- Writing keeps the characters of a string apart. -/
theorem characters_encodeString (s : Text) :
    Text.characters (encodeString s) = (Text.characters s).map encodeString := by
  fun_induction Text.characters s with
  | case1 => rfl
  | case2 u => rfl
  | case3 u v rest pair ih =>
    show Text.characters (encodeUnit u :: encodeUnit v :: encodeString rest) = _
    rw [Text.characters, isHighSurrogate_encodeUnit, isLowSurrogate_encodeUnit, if_pos pair, ih]
    rfl
  | case4 u v rest pair ih =>
    show Text.characters (encodeUnit u :: encodeUnit v :: encodeString rest) = _
    rw [Text.characters, isHighSurrogate_encodeUnit, isLowSurrogate_encodeUnit, if_neg pair]
    exact congrArg _ ih

/-- A character that the alphabet lacks is written as it is. -/
theorem encodeString_of_not_mem_letters {s c : Text} (hc : c ∈ Text.characters s)
    (h : c ∉ letters) : encodeString c = c := by
  rcases Text.singleton_or_isSurrogate hc with ⟨u, rfl⟩ | surrogates
  · have hu : u ∉ alphabet := fun hu => h (mem_letters_iff.2 ⟨u, rfl, hu⟩)
    rw [encodeString, List.map_singleton, encodeUnit_of_not_mem hu]
  · refine map_eq_self_iff.2 fun u hu => encodeUnit_of_not_mem fun hmem => ?_
    exact absurd (surrogates u hu) (by rw [not_isSurrogate_of_mem_alphabet hmem]; decide)

theorem printable_of_mem_encodeString {s : Text} (h : ∀ u ∈ s, u ∈ alphabet) :
    ∀ u ∈ encodeString s, Printable u := by
  intro u hu
  obtain ⟨v, hv, rfl⟩ := List.mem_map.1 hu
  exact printable_encodeUnit (h v hv)

theorem forall_mem_ne_and_ne_iff {s : Text} {v w : UInt16} :
    (∀ u ∈ s, u ≠ v ∧ u ≠ w) ↔ v ∉ s ∧ w ∉ s := by
  constructor
  · intro h
    exact ⟨fun hv => (h v hv).1 rfl, fun hw => (h w hw).2 rfl⟩
  · rintro ⟨hv, hw⟩ u hu
    exact ⟨ne_of_mem_of_not_mem hu hv, ne_of_mem_of_not_mem hu hw⟩

theorem decodeString_encodeString_eq (s : Text) :
    decodeString (encodeString s) = s.map fun u => decodeUnit (encodeUnit u) :=
  List.map_map

theorem encodeString_decodeString_eq (w : Text) :
    encodeString (decodeString w) = w.map fun u => encodeUnit (decodeUnit u) :=
  List.map_map

/-- Strings of the alphabet are read as they were written. -/
theorem decodeString_encodeString {s : Text} (h : ∀ u ∈ s, u ∈ alphabet) :
    decodeString (encodeString s) = s := by
  rw [decodeString_encodeString_eq, map_eq_self_iff]
  exact fun u hu => decodeUnit_encodeUnit (h u hu)

/-- Printable bodies are written as they were read. -/
theorem encodeString_decodeString {w : Text} (h : ∀ u ∈ w, Printable u) :
    encodeString (decodeString w) = w := by
  rw [encodeString_decodeString_eq, map_eq_self_iff]
  exact fun u hu => encodeUnit_decodeUnit (h u hu)

theorem decodeString_encodeString_iff {s : Text} :
    decodeString (encodeString s) = s ↔ Text.unit '{' ∉ s ∧ Text.unit '}' ∉ s := by
  rw [decodeString_encodeString_eq, map_eq_self_iff]
  simp only [decodeUnit_encodeUnit_iff]
  exact forall_mem_ne_and_ne_iff

theorem encodeString_decodeString_iff {w : Text} :
    encodeString (decodeString w) = w ↔ Text.unit ' ' ∉ w ∧ Text.unit '\n' ∉ w := by
  rw [encodeString_decodeString_eq, map_eq_self_iff]
  simp only [encodeUnit_decodeUnit_iff]
  exact forall_mem_ne_and_ne_iff

end Wire

/-! ### Bodies of tokens -/

namespace Text

theorem isBlank_of_mem_foldr_step {text word : Text}
    (h : word = (text.foldr words.step ([], [])).1 ∨ word ∈ (text.foldr words.step ([], [])).2) :
    ∀ u ∈ word, isBlank u = false := by
  induction text generalizing word with
  | nil =>
    rcases h with rfl | h
    · exact List.forall_mem_nil _
    · cases h
  | cons u text ih =>
    rw [List.foldr_cons] at h
    generalize text.foldr words.step ([], []) = state at ih h
    obtain ⟨w, ws⟩ := state
    by_cases hc : isBlank u
    · simp only [words.step, if_pos hc, words.close] at h
      rcases h with rfl | h
      · exact List.forall_mem_nil _
      · split_ifs at h
        · exact ih (.inr h)
        · exact ih (List.mem_cons.1 h)
    · simp only [words.step, if_neg hc] at h
      rcases h with rfl | h
      · exact List.forall_mem_cons.2 ⟨Bool.eq_false_of_not_eq_true hc, ih (.inl rfl)⟩
      · exact ih (.inr h)

/-- There are no blanks in a word. -/
theorem isBlank_of_mem_words {text word : Text} (h : word ∈ words text) :
    ∀ u ∈ word, isBlank u = false := by
  simp only [words, words.close] at h
  split_ifs at h
  · exact isBlank_of_mem_foldr_step (.inr h)
  · exact isBlank_of_mem_foldr_step (List.mem_cons.1 h)

end Text

/-- There are no blanks in the body of a token. -/
theorem Token.isBlank_of_mem_body {text : Text} {token : Token} (h : token ∈ scan text) :
    ∀ u ∈ token.body, Text.isBlank u = false := by
  obtain ⟨⟨word, i⟩, hmem, rfl⟩ := List.mem_map.1 h
  intro u hu
  have hword : u ∈ word := List.mem_of_mem_drop hu
  exact Text.isBlank_of_mem_words (List.fst_mem_of_mem_zipIdx hmem) u hword

open Wire

/-! ### Main result -/

/-- A string is read back after it was written exactly if there is no brace in it, and written back
after it was read exactly if there is no space and no line feed in it.  So the body of every token
of a program is recovered from the string that it stands for, and strings of the alphabet are not
confused when they are written. -/
theorem stringBody_invertible :
    (∀ s : Text, decodeString (encodeString s) = s ↔ Text.unit '{' ∉ s ∧ Text.unit '}' ∉ s) ∧
    (∀ w : Text, encodeString (decodeString w) = w ↔ Text.unit ' ' ∉ w ∧ Text.unit '\n' ∉ w) ∧
    (∀ text, ∀ token ∈ Token.scan text,
      (∀ u ∈ token.body, Text.isBlank u = false) ∧
      encodeString (decodeString token.body) = token.body) ∧
    Set.InjOn encodeString {s | ∀ u ∈ s, u ∈ alphabet} := by
  refine ⟨fun s => decodeString_encodeString_iff, fun w => encodeString_decodeString_iff,
    fun text token h => ?_, fun s hs t ht written => ?_⟩
  · have unblank := Token.isBlank_of_mem_body h
    refine ⟨unblank, encodeString_decodeString_iff.2 ⟨fun hspace => ?_, fun hline => ?_⟩⟩
    · exact absurd (unblank _ hspace) (by decide)
    · exact absurd (unblank _ hline) (by decide)
  · rw [← decodeString_encodeString hs, written, decodeString_encodeString ht]

/-- Braces are lost when they are written as they are, and so are a space and a line feed when they
are read as they are; braces in the body of a token are not. -/
theorem stringBody_invertible_braces :
    decodeString (encodeString "~ \n") = Text.ofString "~ \n" ∧
    decodeString (encodeString "\x7ba\x7d") ≠ Text.ofString "\x7ba\x7d" ∧
    encodeString (decodeString "\x7ba\x7d") = Text.ofString "\x7ba\x7d" ∧
    encodeString (decodeString "~ \n") ≠ Text.ofString "~ \n" ∧
    (∃ token ∈ Token.scan "I! S\x7bé", token.body = "\x7bé" ∧
      encodeString (decodeString token.body) = token.body) ∧
    encodeString "a b" ≠ encodeString "a\nb" := by
  obtain ⟨there, back, tokens, injective⟩ := stringBody_invertible
  have scanned : Token.scan "I! S\x7bé" = [⟨"I", "!", "I!", 0⟩, ⟨"S", "\x7bé", "S\x7bé", 1⟩] := by
    cbv
  have second : ⟨"S", "\x7bé", "S\x7bé", 1⟩ ∈ Token.scan "I! S\x7bé" := by simp [scanned]
  have inAlphabet (s : Text) (h : ∀ c ∈ Text.characters s, c ∈ letters) :
      s ∈ {s : Text | ∀ u ∈ s, u ∈ alphabet} := forall_characters_mem_letters.1 h
  refine ⟨(there _).2 (by decide), fun h => ?_, (back _).2 (by decide), fun h => ?_,
    ⟨_, second, rfl, (tokens _ _ second).2⟩, fun h => ?_⟩
  · exact ((there _).1 h).1 (by decide)
  · exact ((back _).1 h).1 (by decide)
  · have same := injective (inAlphabet _ (by decide)) (inAlphabet _ (by decide)) h
    exact absurd same (by decide)

end Lambda94
