import Lambda94.CommandLine.Run
import Lambda94.Proofs.IntegerBody
import Lambda94.Proofs.Outcome

/-!
# Budgets of the command line

A budget is looked at twice.  On the command line its digits must spell a positive number; the
evaluator wants the binary number nearest to that to be a positive integer which is exact.  The two
agree below `2 ^ 53` and nowhere else: `limit_of_run_iff`.

A whole number below `2 ^ 53` has its own binary number (`Number.nearest_of_log2_le`), and what is
not below it is not rounded to below it (`Number.nearest_of_lt_log2`).
-/

namespace Lambda94

/-! ### Binary numbers of whole numbers -/

namespace Number

variable {n : Nat}

theorem lt_mantissaBound_iff (hn : n ≠ 0) : n < mantissaBound ↔ n.log2 ≤ 52 := by
  rw [show mantissaBound = 2 ^ 53 from rfl, ← Nat.log2_lt hn, Nat.lt_succ_iff]

theorem mul_two_pow_lt (h : n.log2 ≤ 52) : n * 2 ^ (52 - n.log2) < mantissaBound :=
  calc n * 2 ^ (52 - n.log2)
    _ < 2 ^ (n.log2 + 1) * 2 ^ (52 - n.log2) :=
      Nat.mul_lt_mul_of_pos_right Nat.lt_log2_self (Nat.two_pow_pos _)
    _ = mantissaBound := by
      rw [← Nat.pow_add, show n.log2 + 1 + (52 - n.log2) = 53 by omega]
      rfl

theorem two_pow_mul_le (hn : n ≠ 0) (h : 52 ≤ n.log2) : 2 ^ 52 * 2 ^ (n.log2 - 52) ≤ n := by
  rw [← Nat.pow_add, Nat.add_sub_cancel' h]
  exact Nat.log2_self_le hn

/-- The mantissa of a whole number has 53 bits with the exponent that is chosen for it. -/
theorem exponentOf_one (hn : n ≠ 0) : exponentOf n 1 = n.log2 - 52 := by
  have lower : 2 ^ n.log2 ≤ n := Nat.log2_self_le hn
  -- With an exponent one less the mantissa would have 54 bits.
  have full : mantissaBound * 2 ^ (n.log2 - 53) ≤ n * 2 ^ (53 - n.log2) := by
    calc mantissaBound * 2 ^ (n.log2 - 53)
      _ = 2 ^ n.log2 * 2 ^ (53 - n.log2) := by
        rw [show mantissaBound = 2 ^ 53 from rfl, ← Nat.pow_add, ← Nat.pow_add]
        congr 1
        omega
      _ ≤ n * 2 ^ (53 - n.log2) := Nat.mul_le_mul_right _ lower
  have one : ((Nat.log2 1 : Nat) : Int) = 0 := congrArg _ (by decide : Nat.log2 1 = 0)
  have shifts : (-((n.log2 : Int) - 0 - 53)).toNat = 53 - n.log2 ∧
      ((n.log2 : Int) - 0 - 53).toNat = n.log2 - 53 := by
    omega
  simp only [exponentOf, one, scale, shifts, Nat.shiftLeft_eq, one_mul, if_pos full, minExponent]
  omega

/-- A whole number below `2 ^ 53` is not rounded. -/
theorem nearest_of_log2_le (hn : n ≠ 0) (h : n.log2 ≤ 52) :
    nearest false n 1 = .finite false (n * 2 ^ (52 - n.log2)) (n.log2 - 52) := by
  have shifts : (-((n.log2 : Int) - 52)).toNat = 52 - n.log2 ∧ ((n.log2 : Int) - 52).toNat = 0 := by
    omega
  have unrounded : roundQuotient (n * 2 ^ (52 - n.log2)) 1 = n * 2 ^ (52 - n.log2) := by
    simp [roundQuotient, Nat.mod_one]
  have small : ¬ maxExponent < (n.log2 : Int) - 52 := by
    simp only [maxExponent]
    omega
  simp [nearest, hn, exponentOf_one hn, scale, shifts, Nat.shiftLeft_eq, unrounded,
    (mul_two_pow_lt h).ne, small]

theorem le_roundQuotient (p q : Nat) : p / q ≤ roundQuotient p q := by
  rw [roundQuotient]
  split_ifs <;> omega

/-- A whole number that is not below `2 ^ 53` is rounded to one that is not, if to any. -/
theorem nearest_of_lt_log2 (hn : n ≠ 0) (h : 52 < n.log2) :
    nearest false n 1 = .infinite false ∨
      ∃ m e, nearest false n 1 = .finite false m e ∧ 2 ^ 52 ≤ m ∧ 0 < e := by
  have shifts : (-((n.log2 : Int) - 52)).toNat = 0 ∧
      ((n.log2 : Int) - 52).toNat = n.log2 - 52 := by
    omega
  have quotient : 2 ^ 52 ≤ roundQuotient n (2 ^ (n.log2 - 52)) :=
    calc 2 ^ 52
      _ ≤ n / 2 ^ (n.log2 - 52) :=
        (Nat.le_div_iff_mul_le (Nat.two_pow_pos _)).2 (two_pow_mul_le hn h.le)
      _ ≤ roundQuotient n (2 ^ (n.log2 - 52)) := le_roundQuotient _ _
  simp only [nearest, hn, if_false, exponentOf_one hn, scale, shifts, Nat.shiftLeft_eq, one_mul,
    pow_zero, mul_one]
  generalize roundQuotient n (2 ^ (n.log2 - 52)) = m at quotient
  by_cases hcarry : m = mantissaBound
  · simp only [hcarry, if_true]
    split_ifs
    · exact .inl rfl
    · exact .inr ⟨_, _, rfl, by decide, by omega⟩
  · simp only [hcarry, if_false]
    split_ifs
    · exact .inl rfl
    · exact .inr ⟨m, _, rfl, quotient, by omega⟩

theorem toInt?_infinite (negative : Bool) : (Number.infinite negative).toInt? = none := rfl

theorem toInt?_finite_of_nonneg (m : Nat) {e : Int} (he : 0 ≤ e) :
    (Number.finite false m e).toInt? = some ((m * 2 ^ e.toNat : Nat) : Int) := by
  have shift : (-e).toNat = 0 := by omega
  simp [toInt?, scale, shift, Nat.shiftLeft_eq, Nat.mod_one]

theorem toInt?_finite_of_nonpos (n : Nat) {e : Int} (he : e ≤ 0) :
    (Number.finite false (n * 2 ^ (-e).toNat) e).toInt? = some (n : Int) := by
  have shift : e.toNat = 0 := by omega
  simp [toInt?, scale, shift, Nat.shiftLeft_eq]

/-- Whole numbers are taken for what they are below `2 ^ 53`, and not at all otherwise. -/
theorem toSafeInt?_nearest (hn : n ≠ 0) :
    (nearest false n 1).toSafeInt? = if n < mantissaBound then some (n : Int) else none := by
  by_cases h : n.log2 ≤ 52
  · have hlt : n < mantissaBound := (lt_mantissaBound_iff hn).2 h
    have whole : (nearest false n 1).toInt? = some (n : Int) := by
      rw [nearest_of_log2_le hn h, show 52 - n.log2 = (-((n.log2 : Int) - 52)).toNat by omega]
      exact toInt?_finite_of_nonpos n (by omega)
    rw [if_pos hlt, toSafeInt?, whole, Option.filter_some, Int.natAbs_natCast,
      if_pos (decide_eq_true hlt)]
  · rw [if_neg (mt (lt_mantissaBound_iff hn).1 h), toSafeInt?]
    obtain hinf | ⟨m, e, hfin, hm, he⟩ := nearest_of_lt_log2 hn (Nat.lt_of_not_le h)
    · rw [hinf, toInt?_infinite, Option.filter_none]
    · have large : ¬ m * 2 ^ e.toNat < mantissaBound := by
        have twice : 2 ^ 1 ≤ 2 ^ e.toNat := Nat.pow_le_pow_right (by decide) (by omega)
        exact Nat.not_lt.2 (Nat.mul_le_mul hm twice)
      rw [hfin, toInt?_finite_of_nonneg m he.le, Option.filter_some, Int.natAbs_natCast,
        if_neg (mt of_decide_eq_true large)]

theorem length_digits (hn : n ≠ 0) :
    10 ^ ((Numeral.digits 10 n).length - 1) ≤ n ∧ (Numeral.digits 10 n).length ≠ 0 := by
  rw [Numeral.digits_eq_reverse (by decide) hn, List.length_reverse]
  have positive : (Nat.digits 10 n).length ≠ 0 :=
    fun h => Nat.digits_ne_nil_iff_ne_zero.2 hn (List.length_eq_zero_iff.1 h)
  refine ⟨Nat.pow_le_of_le_log hn ?_, positive⟩
  rw [Nat.length_digits 10 n (by decide) hn, Nat.add_sub_cancel]

/-- The number nearest to a natural number is that number if it is below `2 ^ 53`, and otherwise no
integer that would be exact. -/
theorem toSafeInt?_ofNat (n : Nat) :
    (ofNat n).toSafeInt? = if n < mantissaBound then some (n : Int) else none := by
  by_cases hn : n = 0
  · subst hn
    rfl
  obtain ⟨lower, positive⟩ := length_digits hn
  have notTiny : ¬ (n = 0 ∨ 0 + ((Numeral.digits 10 n).length : Int) < -330) := by omega
  have unscaled : nearest false (n * Nat.pow 10 (0 : Int).toNat) (Nat.pow 10 (-0 : Int).toNat) =
      nearest false n 1 := congrArg (nearest false · 1) (Nat.mul_one n)
  rw [ofNat, ofDecimal, if_neg notTiny]
  split_ifs with hlong hlt hlt
  · have : mantissaBound ≤ 10 ^ ((Numeral.digits 10 n).length - 1) :=
      le_trans (by decide : mantissaBound ≤ 10 ^ 16) (Nat.pow_le_pow_right (by decide) (by omega))
    omega
  · rfl
  · exact (congrArg _ unscaled).trans ((toSafeInt?_nearest hn).trans (if_pos hlt))
  · exact (congrArg _ unscaled).trans ((toSafeInt?_nearest hn).trans (if_neg hlt))

end Number

/-! ### Counts on the command line -/

namespace CommandLine

open Options

/-- The budgets that the words of a command line ask for, from left to right. -/
def Options.counts : List Text → List Nat
  | [] => []
  | word :: words =>
    if word = "--max-iterations" ∨ word = "-n" then
      match words with
      | [] => []
      | value :: words => (count? value).toList ++ counts words
    else counts words

/-- The budget that a command line asks for: the last count on it, or the default. -/
def Options.count (args : List Text) : Nat :=
  (counts args).getLast?.getD ({} : Limits).iterations

variable {word value : Text} {words args : List Text} {n : Nat}

theorem counts_cons_of_ne (h : ¬ (word = "--max-iterations" ∨ word = "-n")) :
    counts (word :: words) = counts words := by
  cases words <;> simp [counts, h]

theorem counts_cons_cons (hword : word = "--max-iterations" ∨ word = "-n")
    (hvalue : count? value = some n) : counts (word :: value :: words) = n :: counts words := by
  rw [counts, if_pos hword, hvalue]
  rfl

theorem pos_of_count? (h : count? value = some n) : 0 < n := by
  obtain ⟨-, hne⟩ := Option.filter_eq_some_iff.1 h
  exact Nat.pos_of_ne_zero (of_decide_eq_true hne)

theorem pos_of_mem_counts (h : n ∈ counts args) : 0 < n := by
  fun_induction counts args with
  | case1 => cases h
  | case2 => cases h
  | case3 word hword value words ih =>
    obtain hn | hn := List.mem_append.1 h
    · exact pos_of_count? (Option.mem_toList.1 hn)
    · exact ih hn
  | case4 word words hword ih => exact ih h

theorem count_pos (args : List Text) : 0 < count args := by
  rw [count]
  cases hlast : (counts args).getLast? with
  | none => decide
  | some n => exact pos_of_mem_counts (List.mem_of_getLast? hlast)

variable {options options' : Options}

theorem takeWord_budget (h : options.takeWord word = .ok options') :
    options'.budget = options.budget := by
  revert h
  rw [takeWord]
  split
  · split <;> rintro ⟨⟩
    rfl
  · rintro ⟨⟩
    rfl
  · rintro ⟨⟩

/-- The last count is the budget; the other words do not touch it. -/
theorem take_budget (h : options.take args = .ok options') :
    options'.budget = (counts args).getLast?.elim options.budget Number.ofNat := by
  fun_induction Options.take options args with
  | case1 options =>
    cases h
    rfl
  | case2 options word words hword ih =>
    rw [ih h, counts_cons_of_ne]
    rintro (rfl | rfl) <;> simp at hword
  | case3 options word words _ hword ih =>
    rw [ih h, counts_cons_of_ne]
    rintro (rfl | rfl) <;> simp at hword
  | case4 options word words _ _ hword ih =>
    rw [ih h, counts_cons_of_ne]
    rintro (rfl | rfl) <;> simp at hword
  | case5 => cases h
  | case6 => cases h
  | case7 options word _ _ _ hword value words n hvalue ih =>
    rw [ih h, counts_cons_cons hword hvalue, List.getLast?_cons]
    cases (counts words).getLast? <;> rfl
  | case8 => cases h
  | case9 options word words _ _ _ hword _ ih =>
    obtain ⟨taken, htaken, hrest⟩ := bind_eq_ok_iff.1 h
    rw [ih taken hrest, takeWord_budget htaken, counts_cons_of_ne hword]

theorem ofArgs_budget (h : ofArgs args = .ok options) :
    options.budget = Number.ofNat (count args) := by
  rw [take_budget h, count]
  cases (counts args).getLast? <;> rfl

/-- The evaluator takes a count that is exact, and no other. -/
theorem ofNumbers_ofNat (hn : 0 < n) : Limits.ofNumbers (some (Number.ofNat n)) none =
    if n < Number.mantissaBound then .ok { iterations := n }
    else .error ⟨"maxIterations", Number.ofNat n⟩ := by
  have checked : Limits.check "maxIterations" (Number.ofNat n) =
      if n < Number.mantissaBound then .ok n else .error ⟨"maxIterations", Number.ofNat n⟩ := by
    have positive : ¬ (n : Int) < 1 := by omega
    unfold Limits.check
    rw [Number.toSafeInt?_ofNat]
    split_ifs <;> simp [positive]
  rw [Limits.ofNumbers, show Limits.checkOption "maxIterations" ({} : Limits).iterations
    (some (Number.ofNat n)) = _ from checked]
  split_ifs <;> rfl

/-! ### Evaluations -/

variable {expr : Expr} {source : Text} {command : Verb} {stepping verbose : Bool}
  {budget : Number}

theorem run_of_evaluates (h : command = .step ∨ command = .run)
    (parses : Expr.ofText source = .ok expr) :
    run command source verbose budget =
      evaluate expr (decide (command = .step)) verbose budget := by
  rw [run, parses]
  obtain rfl | rfl := h <;> rfl

theorem evaluate_of_error {error : LimitError}
    (h : Limits.ofNumbers (some budget) none = .error error) :
    evaluate expr stepping verbose budget =
      ⟨if stepping then [(.line, expr.pretty)] else [], some (.limit error)⟩ := by
  simp only [evaluate, h]

theorem failure_evaluate_ne_limit {limits : Limits}
    (h : Limits.ofNumbers (some budget) none = .ok limits) (error : LimitError) :
    (evaluate expr stepping verbose budget).failure ≠ some (.limit error) := by
  simp only [evaluate, h]
  cases (expr.evaluate limits).run {} <;> rintro ⟨⟩

/-! ### Main result -/

/-- A command line that asks for an evaluation has a budget of at least one step.  It is the budget
of the evaluation if it is below `2 ^ 53`; if it is not, then no evaluation is made, and the failure
says that the budget is no positive integer, which it is. -/
theorem limit_of_run_iff {args : List Text} {options : Options} {command : Verb} {source : Text}
    {expr : Expr} (accepted : ofArgs args = .ok options)
    (evaluates : options.command = some command ∧ (command = .step ∨ command = .run))
    (parses : Expr.ofText source = .ok expr) :
    let outcome := run command source options.verbose options.budget
    0 < count args ∧
      ((∃ error, outcome.failure = some (.limit error)) ↔ 2 ^ 53 ≤ count args) ∧
      (2 ^ 53 ≤ count args → outcome =
        ⟨if command = .step then [(.line, expr.pretty)] else [],
          some (.limit ⟨"maxIterations", Number.ofNat (count args)⟩)⟩) ∧
      (count args < 2 ^ 53 →
        Limits.ofNumbers (some options.budget) none = .ok { iterations := count args }) := by
  intro outcome
  have positive : 0 < count args := count_pos args
  have outcome_eq : outcome = evaluate expr (decide (command = .step)) options.verbose
      (Number.ofNat (count args)) := by
    rw [← ofArgs_budget accepted]
    exact run_of_evaluates evaluates.2 parses
  have refused (h : 2 ^ 53 ≤ count args) : outcome =
      ⟨if command = .step then [(.line, expr.pretty)] else [],
        some (.limit ⟨"maxIterations", Number.ofNat (count args)⟩)⟩ := by
    rw [outcome_eq, evaluate_of_error ((ofNumbers_ofNat positive).trans (if_neg (Nat.not_lt.2 h)))]
    simp only [decide_eq_true_eq]
  refine ⟨positive, ⟨?_, fun h => ⟨_, congrArg Outcome.failure (refused h)⟩⟩, refused, fun h => ?_⟩
  · rintro ⟨error, herror⟩
    by_contra h
    rw [outcome_eq] at herror
    exact failure_evaluate_ne_limit
      ((ofNumbers_ofNat positive).trans (if_pos (Nat.lt_of_not_le h))) error herror
  · rw [ofArgs_budget accepted]
    exact (ofNumbers_ofNat positive).trans (if_pos h)

/-- A budget of `2 ^ 53 - 1` steps for a program that is a number, and a budget of one step more. -/
theorem limit_of_run_two_pow :
    (∃ options, ofArgs ["run", "-n", "9007199254740991"] = .ok options ∧
      Limits.ofNumbers (some options.budget) none = .ok { iterations := 2 ^ 53 - 1 }) ∧
    ∃ options, ofArgs ["run", "-n", "9007199254740992"] = .ok options ∧
      ∃ error, (run .run "I\"" options.verbose options.budget).failure = some (.limit error) := by
  have parses : Expr.ofText "I\"" = .ok (.lit (.int 1)) := by decide +kernel
  have small : ofArgs ["run", "-n", "9007199254740991"] =
      .ok { command := some .run, budget := Number.ofNat 9007199254740991 } := by decide +kernel
  have large : ofArgs ["run", "-n", "9007199254740992"] =
      .ok { command := some .run, budget := Number.ofNat 9007199254740992 } := by decide +kernel
  obtain ⟨-, -, -, taken⟩ := limit_of_run_iff small ⟨rfl, .inr rfl⟩ parses
  obtain ⟨-, refused, -, -⟩ := limit_of_run_iff large ⟨rfl, .inr rfl⟩ parses
  exact ⟨⟨_, small, taken (by decide +kernel)⟩, ⟨_, large, refused.2 (by decide +kernel)⟩⟩

/-- A count that the command line accepts, and the evaluator does not. -/
theorem accepted_count_refused :
    ∃ options, ofArgs ["run", "-n", "9007199254740993"] = .ok options ∧
      options.command = some .run ∧ Expr.ofText "I\"" = .ok (.lit (.int 1)) ∧
      run .run "I\"" options.verbose options.budget =
        ⟨[], some (.limit ⟨"maxIterations", Number.ofNat 9007199254740993⟩)⟩ ∧
      (LimitError.mk "maxIterations" (Number.ofNat 9007199254740993)).message =
        "maxIterations must be a positive integer, got 9007199254740992" := by
  refine ⟨{ command := some .run, budget := Number.ofNat 9007199254740993 }, ?_, rfl, ?_, ?_, ?_⟩
  all_goals decide +kernel

end CommandLine

end Lambda94
