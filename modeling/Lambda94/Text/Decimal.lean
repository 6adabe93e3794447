import Lambda94.Numeral
import Lambda94.Text.Basic

/-!
# Decimal text

Integers in decimal, with a minus sign in front when they are negative.  The reader takes ASCII
digits only and accepts leading zeros; `toInt?_ofInt` says that it undoes the writer.
-/

namespace Lambda94.Decimal

/-- The decimal digit of value `d`. -/
def digitUnit (d : Nat) : UInt16 := UInt16.ofNat (48 + d)

/-- The value of an ASCII decimal digit. -/
def digit? (u : UInt16) : Option Nat :=
  if 48 ≤ u.toNat ∧ u.toNat < 58 then some (u.toNat - 48) else none

/-- The minus sign. -/
def minus : UInt16 := Text.unit '-'

/-- A natural number in decimal. -/
def ofNat (n : Nat) : Text := (Numeral.digits 10 n).map digitUnit

/-- An integer in decimal. -/
def ofInt : Int → Text
  | .ofNat n => ofNat n
  | .negSucc n => minus :: ofNat (n + 1)

/-- Reads a non-empty run of decimal digits. -/
def toNat? (text : Text) : Option Nat :=
  if text.isEmpty then none else (text.mapM digit?).map (Numeral.value 10)

/-- Reads a non-empty run of decimal digits with at most one minus sign in front. -/
def toInt? : Text → Option Int
  | [] => none
  | u :: text =>
    if u = minus then (toNat? text).map fun (n : Nat) => -(n : Int)
    else (toNat? (u :: text)).map fun (n : Nat) => (n : Int)

/-! ### Reading back -/

theorem digit?_digitUnit {d : Nat} (h : d < 10) : digit? (digitUnit d) = some d := by
  have all : ∀ e ∈ List.range 10, digit? (digitUnit e) = some e := by decide
  exact all d (List.mem_range.2 h)

theorem digitUnit_ne_minus {d : Nat} (h : d < 10) : digitUnit d ≠ minus := by
  have all : ∀ e ∈ List.range 10, digitUnit e ≠ minus := by decide
  exact all d (List.mem_range.2 h)

theorem mapM_digit?_map {ds : List Nat} (h : ∀ d ∈ ds, d < 10) :
    (ds.map digitUnit).mapM digit? = some ds := by
  induction ds with
  | nil => rfl
  | cons d ds ih =>
    have hd := digit?_digitUnit (h d (by simp))
    have ih := ih fun e he => h e (by simp [he])
    simp [List.mapM_cons, hd, ih]

theorem ofNat_ne_nil (n : Nat) : ofNat n ≠ [] := by
  simp [ofNat, Numeral.digits_ne_nil]

theorem toNat?_ofNat (n : Nat) : toNat? (ofNat n) = some n := by
  have h := mapM_digit?_map fun d hd => Numeral.lt_of_mem_digits (b := 10) (n := n) (by omega) hd
  rw [toNat?, if_neg (by simp [ofNat_ne_nil]), ofNat, h, Option.map_some,
    Numeral.value_digits (by omega)]

theorem toInt?_ofInt (n : Int) : toInt? (ofInt n) = some n := by
  cases n with
  | ofNat n =>
    obtain ⟨d, ds, hd⟩ := List.exists_cons_of_ne_nil (Numeral.digits_ne_nil 10 n)
    have lt : d < 10 := Numeral.lt_of_mem_digits (b := 10) (n := n) (by omega) (by simp [hd])
    have text : ofNat n = digitUnit d :: ds.map digitUnit := by rw [ofNat, hd, List.map_cons]
    rw [ofInt, text, toInt?, if_neg (digitUnit_ne_minus lt), ← text, toNat?_ofNat]
    rfl
  | negSucc n => simp [ofInt, toInt?, toNat?_ofNat, Int.negSucc_eq]

end Lambda94.Decimal
