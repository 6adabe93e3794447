import Lambda94.Wire.Alphabet

/-!
# String bodies

A string travels as printable characters: the `p`-th character of the string alphabet is written
as the wire character at position `p`.  A character without a partner passes through unchanged, in
both directions.  All characters with a partner are single units, so the cipher works on units.
-/

namespace Lambda94.Wire

/-- The character that a wire character stands for. -/
def decodeUnit (u : UInt16) : UInt16 :=
  match digit? u with
  | some p => alphabet.getD p u
  | none => u

/-- The wire character that stands for a character. -/
def encodeUnit (u : UInt16) : UInt16 :=
  match alphabet.idxOf? u with
  | some p => charAt p
  | none => u

/-- Reads a string body. -/
def decodeString (body : Text) : Text := body.map decodeUnit

/-- Writes a string body. -/
def encodeString (s : Text) : Text := s.map encodeUnit

theorem decodeUnit_encodeUnit {u : UInt16} (h : u ∈ alphabet) : decodeUnit (encodeUnit u) = u := by
  obtain ⟨p, hp⟩ := Option.isSome_iff_exists.1 (List.isSome_idxOf?.2 h)
  obtain ⟨hlt, hget, -⟩ := List.idxOf?_eq_some_iff.1 hp
  have hdigit : digit? (charAt p) = some p := digit?_charAt (length_alphabet ▸ hlt)
  rw [encodeUnit, hp, decodeUnit, hdigit]
  dsimp only
  rw [List.getD_eq_getElem?_getD, List.getElem?_eq_getElem hlt, Option.getD_some, hget]

end Lambda94.Wire
