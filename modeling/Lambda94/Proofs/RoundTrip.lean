import Lambda94.Eval.Text
import Lambda94.Proofs.Magnitude
import Lambda94.Proofs.Respelling

/-!
# Writing an expression and reading it back

An expression can be written exactly if its strings can be encoded and every variable refers to the
same when the text is read back; and then its canonical form is read back:
`toWire_eq_ok_iff_referents`.  A program that was read from text is its own canonical form but for
its negative literals: `ofText_of_toWire`.  There are such literals, since numerals wrap to 64 bits,
and `wrapped_literal_read_back_as_negation` is a program that is read back as another one.  Whatever
its literals, the program that is read back has the same value: `evaluateText_of_toWire`.
-/

namespace Lambda94

namespace Expr

/-! ### Writing -/

theorem toWire_eq_ok_iff {expr : Expr} {written : Text} :
    expr.toWire = .ok written ↔
      expr.Encodable ∧ expr.ReadsBack [] ∧ written = expr.text := by
  rw [toWire]
  cases htokens : expr.wireTokens [] with
  | error error =>
    refine ⟨nofun, fun h => ?_⟩
    rw [wireTokens_eq_ok_iff.2 ⟨h.1, h.2.1, rfl⟩] at htokens
    cases htokens
  | ok tokens =>
    obtain ⟨encodable, reads, rfl⟩ := wireTokens_eq_ok_iff.1 htokens
    exact ⟨fun h => ⟨encodable, reads, (Except.ok.inj h).symm⟩, fun h => congrArg _ h.2.2.symm⟩

theorem ofText_text {expr : Expr} (fits : expr.Fits) (encodable : expr.Encodable)
    (reads : expr.ReadsBack []) : ofText expr.text = .ok expr.canonical :=
  ofText_eq_ok_iff.2 ⟨_, Program.ofText_text fits encodable reads, rfl⟩

/-! ### Writing without signs -/

theorem words_absolute (expr : Expr) : expr.absolute.words = expr.words := by
  induction expr with
  | lit value => rfl
  | unary op operand ih => rw [absolute, words, words, ih]
  | binary op left right ihl ihr => rw [absolute, words, words, ihl, ihr]
  | cond c t e ihc iht ihe => rw [absolute, words, words, ihc, iht, ihe]
  | lam binder body ih => rw [absolute, words, words, ih, Int.natAbs_natCast]
  | var id => rw [absolute, words, words, Int.natAbs_natCast]

theorem Each.absolute {lit : Value → Prop} {binder var : Int → Prop}
    (hbinder : ∀ id, binder id → binder id.natAbs) (hvar : ∀ id, var id → var id.natAbs)
    {expr : Expr} (h : expr.Each lit binder var) : expr.absolute.Each lit binder var := by
  induction expr with
  | lit value => exact h
  | unary op operand ih => exact ih h
  | binary op left right ihl ihr => exact ⟨ihl h.1, ihr h.2⟩
  | cond c t e ihc iht ihe => exact ⟨ihc h.1, iht h.2.1, ihe h.2.2⟩
  | lam id body ih => exact ⟨hbinder id h.1, ih h.2⟩
  | var id => exact hvar id h

/-- The text of an expression is read as the canonical form of the expression without its signs. -/
theorem ofText_text_absolute {expr : Expr} (fits : expr.Fits) (encodable : expr.Encodable) :
    ofText expr.text = .ok expr.absolute.canonical := by
  have htext : expr.absolute.text = expr.text := by rw [text, text, words_absolute]
  have small : ∀ id : Int, id.natAbs < 2 ^ 63 → (id.natAbs : Int).natAbs < 2 ^ 63 :=
    fun id h => by rwa [Int.natAbs_natCast]
  rw [← htext]
  exact ofText_text (Each.absolute small small fits)
    (Each.absolute (fun _ h => h) (fun _ h => h) encodable) (expr.readsBack_absolute (by simp))

end Expr

/-- An expression whose ids and integers are small can be written exactly if every string has only
characters of the string alphabet and every variable, when the text with absolute ids is read back,
refers to the same function, or is free with the same id.  What is written is that text; it is read
back as the canonical form of the expression, in which the binders count down from `-1` and no
variable has another referent. -/
theorem toWire_eq_ok_iff_referents {expr : Expr} (fits : expr.Fits) :
    ((∃ written, expr.toWire = .ok written) ↔
      expr.Encodable ∧ ∃ back, Expr.ofText expr.text = .ok back ∧
        ∀ path referent, expr.referent? path = some referent →
          back.referent? path = some referent) ∧
    ∀ written, expr.toWire = .ok written →
      written = expr.text ∧ Expr.ofText written = .ok expr.canonical ∧
        expr.canonical.binders = countdown (-1) expr.binders.length ∧
        ∀ path, expr.canonical.referent? path = expr.referent? path := by
  have absolute : ∀ path, expr.absolute.canonical.referent? path = expr.absolute.referent? path :=
    Expr.referent?_canonical (expr.readsBack_absolute (by simp))
  refine ⟨⟨?_, ?_⟩, ?_⟩
  · rintro ⟨written, hwritten⟩
    obtain ⟨encodable, reads, -⟩ := Expr.toWire_eq_ok_iff.1 hwritten
    refine ⟨encodable, _, Expr.ofText_text fits encodable reads, fun path referent h => ?_⟩
    rw [Expr.referent?_canonical reads, h]
  · rintro ⟨encodable, back, hback, same⟩
    rw [Expr.ofText_text_absolute fits encodable] at hback
    obtain rfl := Except.ok.inj hback
    have reads : expr.ReadsBack [] := Expr.readsBack_of_referent?_absolute fun path referent h => by
      rw [← absolute, same path referent h]
    exact ⟨expr.text, Expr.toWire_eq_ok_iff.2 ⟨encodable, reads, rfl⟩⟩
  · intro written hwritten
    obtain ⟨encodable, reads, rfl⟩ := Expr.toWire_eq_ok_iff.1 hwritten
    exact ⟨rfl, Expr.ofText_text fits encodable reads, expr.binders_canonical,
      Expr.referent?_canonical reads⟩

/-- A function whose binder is negative and written like that of another one, a function inside it
with a negative literal, and a free variable: what is written names each of them by its absolute
value.  Where the inner function has the numeral of the outer one, the variable of the outer one is
refused. -/
theorem toWire_eq_ok_iff_referents_signed :
    ∃ kept refused : Expr,
      kept = .app (.lam (-3) (.lam 4 (.binary (.strict .add) (.var (-3)) (.lit (.int (-5))))))
        (.var 3) ∧
      refused = .lam 3 (.lam (-3) (.var 3)) ∧
      kept.toWire = .ok "B$ L$ L% B+ v$ U- I& v$" ∧
      Expr.ofText "B$ L$ L% B+ v$ U- I& v$" = .ok
        (.app (.lam (-1) (.lam (-2) (.binary (.strict .add) (.var (-1))
          (.unary .negate (.lit (.int 5)))))) (.var 3)) ∧
      refused.Encodable ∧ ¬ ∃ back, Expr.ofText refused.text = .ok back ∧
        ∀ path referent, refused.referent? path = some referent →
          back.referent? path = some referent := by
  let kept : Expr :=
    .app (.lam (-3) (.lam 4 (.binary (.strict .add) (.var (-3)) (.lit (.int (-5)))))) (.var 3)
  let refused : Expr := .lam 3 (.lam (-3) (.var 3))
  have fits₁ : kept.Fits := by
    simp [kept, Expr.Fits, Expr.Each, Value.Fits]
  have fits₂ : refused.Fits := by
    simp [refused, Expr.Fits, Expr.Each]
  have written : kept.toWire = .ok "B$ L$ L% B+ v$ U- I& v$" := by cbv
  have refusal : refused.toWire = .error (.ambiguousVariable 3) := by cbv
  have back := ((toWire_eq_ok_iff_referents fits₁).2 _ written).2.1
  have encodable : refused.Encodable := by
    simp [refused, Expr.Encodable, Expr.Each]
  refine ⟨kept, refused, rfl, rfl, written, back, encodable, fun hback => ?_⟩
  obtain ⟨text, htext⟩ := (toWire_eq_ok_iff_referents fits₂).1.2 ⟨encodable, hback⟩
  rw [refusal] at htext
  cases htext

/-! ### Programs that were read -/

theorem wrap_neg_wrap_neg {n : Int} (lower : -2 ^ 63 ≤ n) (upper : n < 2 ^ 63) :
    wrap (-wrap (-n)) = n := by
  rw [wrap_neg_wrap, Int.neg_neg, wrap_eq_self (by omega) (by omega)]

/-- Writing negative integers as negations writes integers in another way. -/
theorem Expr.respelled_spellNegatives {expr : Expr} (fits : expr.Fits) :
    expr.Respelled expr.spellNegatives := by
  induction expr with
  | lit value =>
    rcases value with s | b | n
    · exact .lit _
    · exact .lit _
    · rw [spellNegatives, Value.spelled]
      split_ifs
      · have spelled := Respelled.negation (wrap (-n))
        rwa [wrap_neg_wrap_neg fits.1 fits.2] at spelled
      · exact .lit _
  | unary op operand ih => exact .unary op (ih fits)
  | binary op left right ihl ihr => exact .binary op (ihl fits.1) (ihr fits.2)
  | cond c t e ihc iht ihe => exact .cond (ihc fits.1) (iht fits.2.1) (ihe fits.2.2)
  | lam binder body ih => exact .lam binder (ih fits.2)
  | var id => exact .var id

/-- What is written of a program that was read is read as the same program, but for its negative
literals. -/
theorem reread_of_toWire {text written : Text} {expr : Expr}
    (read : Expr.ofText text = .ok expr) (short : text.length < 2 ^ 63)
    (write : expr.toWire = .ok written) :
    expr.Fits ∧ Expr.ofText written = .ok expr.spellNegatives := by
  obtain ⟨program, hprogram, rfl⟩ := Expr.ofText_eq_ok_iff.1 read
  obtain ⟨encodable, reads, rfl⟩ := Expr.toWire_eq_ok_iff.1 write
  have fits := Program.fits_of_ofText hprogram short reads
  obtain ⟨-, -, -, binders⟩ := Program.renamed_of_ofText hprogram
  rw [← Program.length_binders hprogram] at binders
  have same : program.expr.canonical = program.expr.spellNegatives := by
    rw [Expr.canonical, Expr.renumber_eq_self binders]
  rw [Expr.ofText_text fits encodable reads, same]
  exact ⟨fits, rfl⟩

/-- A program that was read from a text, and can be written, comes back with its negative integers
as negations and otherwise as it was: it comes back as it was exactly if it has no negative integer.
A text of `2 ^ 63` characters does not fit in any memory. -/
theorem ofText_of_toWire {text written : Text} {expr : Expr}
    (read : Expr.ofText text = .ok expr) (short : text.length < 2 ^ 63)
    (write : expr.toWire = .ok written) :
    Expr.ofText written = .ok expr.spellNegatives ∧
      (Expr.ofText written = .ok expr ↔ expr.NoNegative) := by
  have back := (reread_of_toWire read short write).2
  refine ⟨back, ?_⟩
  rw [back, ← Expr.spellNegatives_eq_self_iff]
  exact ⟨Except.ok.inj, congrArg _⟩

/-- Two functions of one numeral, one inside the other, a numeral with a leading zero and a free
variable. -/
theorem ofText_of_toWire_shadowed :
    ∃ expr written, Expr.ofText "B$ L# B$ L# v# v# v!$" = .ok expr ∧
      expr = .app (.lam (-1) (.app (.lam (-2) (.var (-2))) (.var (-1)))) (.var 3) ∧
      expr.toWire = .ok written ∧ written = "B$ L\" B$ L# v# v\" v$" ∧
      Expr.ofText written = .ok expr := by
  have read : Expr.ofText "B$ L# B$ L# v# v# v!$" =
      .ok (.app (.lam (-1) (.app (.lam (-2) (.var (-2))) (.var (-1)))) (.var 3)) := by
    cbv
  have write : (Expr.app (.lam (-1) (.app (.lam (-2) (.var (-2))) (.var (-1)))) (.var 3)).toWire =
      .ok "B$ L\" B$ L# v# v\" v$" := by
    cbv
  have noNegative :
      (Expr.app (.lam (-1) (.app (.lam (-2) (.var (-2))) (.var (-1)))) (.var 3)).NoNegative := by
    simp [Expr.NoNegative, Expr.Each]
  exact ⟨_, _, read, rfl, write, rfl, (ofText_of_toWire read (by decide) write).2.2 noNegative⟩

/-- The numeral `2 ^ 64 - 1` is read as `-1`, which is written as a negation and read back as
one. -/
theorem wrapped_literal_read_back_as_negation :
    ∃ expr written, Expr.ofText "IA33?&-jqQh" = .ok expr ∧ expr = .lit (.int (-1)) ∧
      expr.toWire = .ok written ∧ written = "U- I\"" ∧
      Expr.ofText written = .ok (.unary .negate (.lit (.int 1))) ∧
      Expr.ofText written ≠ .ok expr := by
  have read : Expr.ofText "IA33?&-jqQh" = .ok (.lit (.int (-1))) := by cbv
  have write : (Expr.lit (.int (-1))).toWire = .ok "U- I\"" := by cbv
  have back : Expr.ofText "U- I\"" = .ok (.unary .negate (.lit (.int 1))) := by cbv
  refine ⟨_, _, read, rfl, write, rfl, back, fun same => ?_⟩
  rw [back] at same
  cases same

/-! ### Evaluation -/

/-- The evaluation ended with a value, or with an error that is not about the limits. -/
def Settled (result : Except RunError Value) : Prop :=
  ∀ error, result = .error (.eval error) → error.isNonTermination = false

theorem evaluateText_of_respelled {limits limits' : Limits} (le : limits.thrice ≤ limits')
    {text text' : Text} {expr expr' : Expr} (read : Expr.ofText text = .ok expr)
    (read' : Expr.ofText text' = .ok expr') (h : expr.Respelled expr')
    (settled : Settled (evaluateText limits text)) :
    evaluateText limits' text' = evaluateText limits text := by
  obtain ⟨hvalue, herror⟩ := evaluate_of_respelled le h
  rw [evaluateText_of_ofText read] at settled ⊢
  rw [evaluateText_of_ofText read']
  cases hrun : (expr.evaluate limits).run {} with
  | ok value m =>
    obtain ⟨m', hrun'⟩ := hvalue value m hrun
    rw [hrun']
  | error error m =>
    rw [hrun] at settled
    obtain ⟨m', hrun'⟩ := herror error m hrun (settled error rfl)
    rw [hrun']

/-- A program that was read from a text and the program that is written of it have the same value,
or the same error, as long as that is not about the limits: if one of them ends so under some
limits, the other does under all limits with at least three times as many steps and no less of
anything else. -/
theorem evaluateText_of_toWire {text written : Text} {expr : Expr}
    (read : Expr.ofText text = .ok expr) (short : text.length < 2 ^ 63)
    (write : expr.toWire = .ok written) {limits limits' : Limits}
    (le : limits.thrice ≤ limits') :
    (Settled (evaluateText limits text) →
      evaluateText limits' written = evaluateText limits text) ∧
    (Settled (evaluateText limits written) →
      evaluateText limits' text = evaluateText limits written) := by
  obtain ⟨fits, back⟩ := reread_of_toWire read short write
  have respelled := Expr.respelled_spellNegatives fits
  exact ⟨evaluateText_of_respelled le read back respelled,
    evaluateText_of_respelled le back read respelled.symm⟩

/-- Negative literals under an addition and in the argument of a function, the smallest integer
among them; and one that is divided by zero. -/
theorem evaluateText_of_toWire_negative_literals :
    ∃ sum quotient writtenSum writtenQuotient,
      Expr.ofText "B$ L! B+ v! IA33?&-jqQh I1**0#VEx9E" = .ok sum ∧
      sum.toWire = .ok writtenSum ∧ writtenSum = "B$ L\" B+ v\" U- I\" U- I1**0#VEx9E" ∧
      evaluateText {} "B$ L! B+ v! IA33?&-jqQh I1**0#VEx9E" = .ok (.int (2 ^ 63 - 1)) ∧
      Expr.ofText "B/ IA33?&-jqQh I!" = .ok quotient ∧
      quotient.toWire = .ok writtenQuotient ∧ writtenQuotient = "B/ U- I\" I!" ∧
      evaluateText {} "B/ IA33?&-jqQh I!" = .error (.eval (.divisionByZero .div)) ∧
      ∀ limits, ({} : Limits).thrice ≤ limits →
        evaluateText limits writtenSum = .ok (.int (2 ^ 63 - 1)) ∧
        evaluateText limits writtenQuotient = .error (.eval (.divisionByZero .div)) := by
  have read₁ : Expr.ofText "B$ L! B+ v! IA33?&-jqQh I1**0#VEx9E" =
      .ok (.app (.lam (-1) (.binary (.strict .add) (.var (-1)) (.lit (.int (-1)))))
        (.lit (.int (-2 ^ 63)))) := by
    cbv
  have write₁ : (Expr.app (.lam (-1) (.binary (.strict .add) (.var (-1)) (.lit (.int (-1)))))
      (.lit (.int (-2 ^ 63)))).toWire = .ok "B$ L\" B+ v\" U- I\" U- I1**0#VEx9E" := by
    cbv
  have value₁ : evaluateText {} "B$ L! B+ v! IA33?&-jqQh I1**0#VEx9E" =
      .ok (.int (2 ^ 63 - 1)) := by
    decide +kernel
  have read₂ : Expr.ofText "B/ IA33?&-jqQh I!" =
      .ok (.binary (.strict .div) (.lit (.int (-1))) (.lit (.int 0))) := by
    cbv
  have write₂ : (Expr.binary (.strict .div) (.lit (.int (-1))) (.lit (.int 0))).toWire =
      .ok "B/ U- I\" I!" := by
    cbv
  have error₂ : evaluateText {} "B/ IA33?&-jqQh I!" = .error (.eval (.divisionByZero .div)) := by
    decide +kernel
  refine ⟨_, _, _, _, read₁, write₁, rfl, value₁, read₂, write₂, rfl, error₂, fun limits le => ?_⟩
  have settled₁ : Settled (evaluateText {} "B$ L! B+ v! IA33?&-jqQh I1**0#VEx9E") := by
    rw [value₁]
    rintro _ ⟨⟩
  have settled₂ : Settled (evaluateText {} "B/ IA33?&-jqQh I!") := by
    rw [error₂]
    rintro _ ⟨⟩
    rfl
  rw [(evaluateText_of_toWire read₁ (by decide) write₁ le).1 settled₁,
    (evaluateText_of_toWire read₂ (by decide) write₂ le).1 settled₂]
  exact ⟨value₁, error₂⟩

end Lambda94
