import Lambda94.Text.Basic

/-!
# The wire alphabet

The wire is written with the 94 printable characters from `!` to `~`.  The character at position
`p` is the digit of value `p` in an integer, and stands for the `p`-th character of the string
alphabet in a string.
-/

namespace Lambda94.Wire

/-- The number of printable characters, and the base of the integers on the wire. -/
def base : Nat := 94

/-- The unit of the first printable character. -/
def offset : Nat := 33

/-- The characters of strings, in wire order. -/
def alphabet : Text :=
  "abcdefghijklmnopqrstuvwxyzABCDEFGHIJKLMNOPQRSTUVWXYZ0123456789" ++
    "!\"#$%&'()*+,-./:;<=>?@[\\]^_`|~ \n"

/-- The characters of strings, each of them a text. -/
def letters : List Text := alphabet.map ([·])

/-- The wire character at a position; positions outside the alphabet go on through the units and
wrap around. -/
def charAt (position : Int) : UInt16 := UInt16.ofInt (offset + position)

/-- The position of a printable character. -/
def digit? (u : UInt16) : Option Nat :=
  if offset ≤ u.toNat ∧ u.toNat < offset + base then some (u.toNat - offset) else none

/-- The position of a character that is printable. -/
def digitValue? : Text → Option Nat
  | [u] => digit? u
  | _ => none

theorem length_alphabet : alphabet.length = base := by decide

theorem nodup_alphabet : alphabet.Nodup := by decide +kernel

theorem digit?_charAt {d : Nat} (h : d < base) : digit? (charAt d) = some d := by
  have all : ∀ e ∈ List.range base, digit? (charAt e) = some e := by decide +kernel
  exact all d (List.mem_range.2 h)

theorem lt_of_digit?_eq_some {u : UInt16} {d : Nat} (h : digit? u = some d) : d < base := by
  simp only [digit?, Option.ite_none_right_eq_some, Option.some.injEq] at h
  omega

theorem charAt_of_digit?_eq_some {u : UInt16} {d : Nat} (h : digit? u = some d) : charAt d = u := by
  have hd := lt_of_digit?_eq_some h
  have back := digit?_charAt hd
  simp only [digit?, Option.ite_none_right_eq_some, Option.some.injEq] at h back
  rw [← UInt16.toNat_inj]
  omega

end Lambda94.Wire
