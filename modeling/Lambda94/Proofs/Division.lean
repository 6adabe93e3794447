import Lambda94.Eval.Scalar
import Mathlib.Data.Rat.Floor

/-!
# Division

The quotient that the machine computes is that of the two numbers as fractions, cut off toward zero
(`tdiv_eq_truncate`), and it fits into 64 bits but for one pair of operands (`wrap_tdiv`).  Still
quotient, product, remainder and sum, each wrapped to 64 bits, lead back to the dividend for every
pair, as wrapping may be left to the end: `division_law`.
-/

namespace Lambda94

/-! ### Cutting off toward zero -/

/-- The integer part of a fraction. -/
def truncate (x : ℚ) : Int := if 0 ≤ x then ⌊x⌋ else ⌈x⌉

theorem truncate_neg (x : ℚ) : truncate (-x) = -truncate x := by
  unfold truncate
  rcases lt_trichotomy x 0 with neg | rfl | pos
  · rw [if_pos (by linarith), if_neg (by linarith), Int.floor_neg]
  · simp
  · rw [if_neg (by linarith), if_pos (by linarith), Int.ceil_neg]

theorem truncate_natCast_div (m n : Nat) : truncate (m / n) = (m / n : Nat) := by
  have nonneg : (0 : ℚ) ≤ m / n := by positivity
  rw [truncate, if_pos nonneg, Rat.floor_natCast_div_natCast]
  rfl

/-- Division of integers cuts the quotient off toward zero. -/
theorem tdiv_eq_truncate (a b : Int) : a.tdiv b = truncate (a / b) := by
  obtain ⟨m, hm⟩ := a.eq_nat_or_neg
  obtain ⟨n, hn⟩ := b.eq_nat_or_neg
  have main : (m : Int).tdiv n = truncate (m / n) := by
    rw [truncate_natCast_div, Int.ofNat_tdiv]
  rcases hm with rfl | rfl <;> rcases hn with rfl | rfl
  · exact main
  · rw [Int.tdiv_neg, main, ← truncate_neg]
    push_cast
    rw [div_neg]
  · rw [Int.neg_tdiv, main, ← truncate_neg]
    push_cast
    rw [neg_div]
  · rw [Int.neg_tdiv, Int.tdiv_neg, neg_neg, main]
    push_cast
    rw [neg_div_neg_eq]

/-! ### Quotients and remainders in 64 bits -/

/-- The quotient of a number of 64 bits fits into 64 bits, unless the least number is divided by
minus one. -/
theorem wrap_tdiv {a b : Int} (lower : -2 ^ 63 ≤ a) (upper : a < 2 ^ 63) :
    wrap (a.tdiv b) = if a = -2 ^ 63 ∧ b = -1 then -2 ^ 63 else a.tdiv b := by
  split_ifs with least
  · obtain ⟨rfl, rfl⟩ := least
    decide
  · have size : (a.tdiv b).natAbs = a.natAbs / b.natAbs := Int.natAbs_tdiv a b
    obtain rfl | rfl | rfl | large : b = 0 ∨ b = 1 ∨ b = -1 ∨ 2 ≤ b.natAbs := by omega
    · rw [Int.tdiv_zero]
      rfl
    · rw [Int.tdiv_one]
      exact wrap_eq_self lower upper
    · rw [Int.tdiv_neg, Int.tdiv_one]
      exact wrap_eq_self (by omega) (by omega)
    · have half : a.natAbs / b.natAbs ≤ a.natAbs / 2 := Nat.div_le_div_left large (by decide)
      exact wrap_eq_self (by omega) (by omega)

theorem abs_tmod_lt (a : Int) {b : Int} (nonzero : b ≠ 0) : |a.tmod b| < |b| := by
  rw [Int.abs_eq_natAbs, Int.abs_eq_natAbs, Int.natAbs_tmod]
  exact Int.ofNat_lt.2 (Nat.mod_lt _ (Int.natAbs_pos.2 nonzero))

/-- The remainder is nearer to zero than the dividend, on the same side. -/
theorem wrap_tmod {a b : Int} (lower : -2 ^ 63 ≤ a) (upper : a < 2 ^ 63) :
    wrap (a.tmod b) = a.tmod b := by
  have size : (a.tmod b).natAbs ≤ a.natAbs := by
    rw [Int.natAbs_tmod]
    exact Nat.mod_le _ _
  rcases Int.le_total 0 a with nonneg | nonpos
  · have side : 0 ≤ a.tmod b := Int.tmod_nonneg b nonneg
    exact wrap_eq_self (by omega) (by omega)
  · have side : 0 ≤ (-a).tmod b := Int.tmod_nonneg b (by omega)
    rw [Int.neg_tmod] at side
    exact wrap_eq_self (by omega) (by omega)

/-- The remainder is zero or has the sign of the dividend. -/
theorem tmod_eq_zero_or_sign (a b : Int) : a.tmod b = 0 ∨ (a.tmod b).sign = a.sign := by
  have sign := Int.sign_tmod a b
  split_ifs at sign with divides
  · exact .inl (Int.sign_eq_zero_iff_zero.1 sign)
  · exact .inr sign

/-- The quotient times the divisor, plus the remainder, is the dividend, although each of them is
wrapped. -/
theorem wrap_quotient_remainder {a b : Int} (lower : -2 ^ 63 ≤ a) (upper : a < 2 ^ 63) :
    wrap (wrap (wrap (a.tdiv b) * b) + wrap (a.tmod b)) = a := by
  have product : wrap (wrap (a.tdiv b) * b) = wrap (a.tdiv b * b) := Int.bmod_mul_bmod
  calc wrap (wrap (wrap (a.tdiv b) * b) + wrap (a.tmod b))
      = wrap (a.tdiv b * b + a.tmod b) := by rw [product, wrap_add_wraps]
    _ = wrap a := by rw [Int.tdiv_mul_add_tmod]
    _ = a := wrap_eq_self lower upper

/-! ### Dividing values -/

namespace StrictOp

theorem eval_div (a b : Int) :
    StrictOp.div.eval (.int a) (.int b) =
      if b = 0 then .error (.divisionByZero .div) else .ok (.ofInt (a.tdiv b)) := by
  rw [eval, divisionOperands_int]
  split_ifs <;> rfl

theorem eval_mod (a b : Int) :
    StrictOp.mod.eval (.int a) (.int b) =
      if b = 0 then .error (.divisionByZero .mod) else .ok (.ofInt (a.tmod b)) := by
  rw [eval, divisionOperands_int]
  split_ifs <;> rfl

/-- On integers, a zero divisor is the only objection of either operator. -/
theorem eval_eq_error_iff {op : StrictOp} (division : op = .div ∨ op = .mod) (a b : Int)
    (error : EvalError) :
    op.eval (.int a) (.int b) = .error error ↔ b = 0 ∧ error = .divisionByZero op := by
  rcases division with rfl | rfl
  · rw [eval_div]
    split_ifs with zero <;> simp [zero, eq_comm]
  · rw [eval_mod]
    split_ifs with zero <;> simp [zero, eq_comm]

end StrictOp

/-! ### Main result -/

/-- An integer of 64 bits divided by one that is not zero: quotient times divisor, plus remainder,
computed with wrapping, is the dividend; the remainder is smaller than the divisor and zero or of
the sign of the dividend; and the quotient is cut off toward zero, exactly but for the least integer
divided by minus one.  A zero divisor is the only error. -/
theorem division_law {a : Int} (lower : -2 ^ 63 ≤ a) (upper : a < 2 ^ 63) (b : Int) :
    (b ≠ 0 → ∃ q p r,
      StrictOp.div.eval (.int a) (.int b) = .ok (.int q) ∧
      StrictOp.mul.eval (.int q) (.int b) = .ok (.int p) ∧
      StrictOp.mod.eval (.int a) (.int b) = .ok (.int r) ∧
      StrictOp.add.eval (.int p) (.int r) = .ok (.int a) ∧
      |r| < |b| ∧ (r = 0 ∨ r.sign = a.sign) ∧
      q = if a = -2 ^ 63 ∧ b = -1 then -2 ^ 63 else truncate (a / b)) ∧
    ∀ op : StrictOp, op = .div ∨ op = .mod → ∀ error,
      op.eval (.int a) (.int b) = .error error ↔ b = 0 ∧ error = .divisionByZero op := by
  refine ⟨fun nonzero => ?_, fun op division error => StrictOp.eval_eq_error_iff division a b error⟩
  have back := wrap_quotient_remainder (b := b) lower upper
  refine ⟨wrap (a.tdiv b), wrap (wrap (a.tdiv b) * b), wrap (a.tmod b), ?_, rfl, ?_, ?_, ?_⟩
  · rw [StrictOp.eval_div, if_neg nonzero]
    rfl
  · rw [StrictOp.eval_mod, if_neg nonzero]
    rfl
  · exact congrArg (Except.ok ∘ Value.int) back
  · rw [wrap_tmod lower upper]
    refine ⟨abs_tmod_lt a nonzero, tmod_eq_zero_or_sign a b, ?_⟩
    rw [wrap_tdiv lower upper, tdiv_eq_truncate]

/-- The least integer divided by minus one, a negative integer divided with a remainder, and one
divided by zero. -/
theorem division_law_least :
    (∃ p r,
      StrictOp.div.eval (.int (-2 ^ 63)) (.int (-1)) = .ok (.int (-2 ^ 63)) ∧
      StrictOp.mul.eval (.int (-2 ^ 63)) (.int (-1)) = .ok (.int p) ∧
      StrictOp.mod.eval (.int (-2 ^ 63)) (.int (-1)) = .ok (.int r) ∧
      StrictOp.add.eval (.int p) (.int r) = .ok (.int (-2 ^ 63))) ∧
    (∃ p r,
      StrictOp.div.eval (.int (-7)) (.int 2) = .ok (.int (-3)) ∧
      StrictOp.mul.eval (.int (-3)) (.int 2) = .ok (.int p) ∧
      StrictOp.mod.eval (.int (-7)) (.int 2) = .ok (.int r) ∧
      StrictOp.add.eval (.int p) (.int r) = .ok (.int (-7))) ∧
    StrictOp.mod.eval (.int (-7)) (.int 0) = .error (.divisionByZero .mod) := by
  obtain ⟨q, p, r, hq, hp, hr, back, -, -, rfl⟩ :=
    (division_law (a := -2 ^ 63) (by decide) (by decide) (-1)).1 (by decide)
  obtain ⟨q', p', r', hq', hp', hr', back', -, -, cut⟩ :=
    (division_law (a := -7) (by decide) (by decide) 2).1 (by decide)
  obtain rfl : q' = -3 := by
    rw [cut, if_neg (by decide)]
    norm_num [truncate]
  refine ⟨⟨p, r, hq, hp, hr, back⟩, ⟨p', r', hq', hp', hr', back'⟩, ?_⟩
  exact ((division_law (a := -7) (by decide) (by decide) 0).2 .mod (.inr rfl) _).2 ⟨rfl, rfl⟩

end Lambda94
