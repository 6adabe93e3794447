import Lambda94.Proofs.Reading

/-!
# One pass over the tokens

Whether tokens form an expression, and which of them is to blame if they do not, is told by a single
pass from left to right that only counts the expressions still to come: `ofTokens_eq_scan`.  The
reader goes down into the expression instead; `scanFrom_succ_eq` takes one to the other.  What the
pass says of tokens with any continuation is `scanFrom_append_cases`.
-/

namespace Lambda94

namespace ParseTree

/-- Passes over the tokens while `pending` expressions are still to come. -/
def scanFrom : (pending : Nat) → List Token → Except ParseError Unit
  | 0, [] => .ok ()
  | _ + 1, [] => .error .unexpectedEnd
  | 0, token :: _ => .error (.trailingTokens token)
  | pending + 1, token :: rest =>
    match TokenShape.ofIndicator? token.indicator with
    | none => .error (.unknownIndicator token)
    | some shape =>
      if shape.body.fits token.body.length then
        -- The token is one of the pending expressions and announces those after it.
        scanFrom (pending + shape.arity) rest
      else .error (.malformedToken shape.rule token)

/-- Passes over the tokens of a whole expression. -/
def scan (tokens : List Token) : Except ParseError Unit :=
  if tokens = [] then .error .emptyInput else scanFrom 1 tokens

theorem scanFrom_cons (pending : Nat) (token : Token) (rest : List Token) :
    scanFrom (pending + 1) (token :: rest) =
      token.shape >>= fun shape => scanFrom (pending + shape.arity) rest := by
  rw [scanFrom, Token.shape]
  cases TokenShape.ofIndicator? token.indicator with
  | none => rfl
  | some shape =>
    dsimp only
    split <;> rfl

/-! ### The reader and the pass -/

/-- Reading some of the pending expressions and passing over the rest is passing over all. -/
theorem scanFrom_add_eq {read : List Token → Except ParseError (ParseTree × List Token)}
    {bound : Nat}
    (shorter : ∀ {tokens tree rest}, read tokens = .ok (tree, rest) → rest.length ≤ tokens.length)
    (one : ∀ pending tokens, tokens.length ≤ bound →
      scanFrom (pending + 1) tokens = read tokens >>= fun result => scanFrom pending result.2)
    (pending count : Nat) {tokens : List Token} (enough : tokens.length ≤ bound) :
    scanFrom (pending + count) tokens =
      readMany read count tokens >>= fun result => scanFrom pending result.2 := by
  induction count generalizing tokens with
  | zero => rfl
  | succ count ih =>
    rw [← Nat.add_assoc, one _ _ enough, readMany]
    cases hread : read tokens with
    | error error => rfl
    | ok result =>
      obtain ⟨tree, rest⟩ := result
      have others := ih (Nat.le_trans (shorter hread) enough)
      show scanFrom (pending + count) rest =
        (readMany read count rest >>= fun result => .ok (tree :: result.1, result.2)) >>= _
      rw [others]
      cases readMany read count rest <;> rfl

/-- Reading one of the pending expressions and passing over the rest is passing over all.  The
induction is on the bound for nesting, which is that of the reader. -/
theorem scanFrom_succ_eq {bound : Nat} (pending : Nat) {tokens : List Token}
    (enough : tokens.length ≤ bound) :
    scanFrom (pending + 1) tokens =
      readWithin bound tokens >>= fun result => scanFrom pending result.2 := by
  induction bound generalizing pending tokens with
  | zero =>
    obtain rfl := List.length_eq_zero_iff.1 (Nat.le_zero.1 enough)
    rfl
  | succ bound ih =>
    cases tokens with
    | nil => rfl
    | cons token rest =>
      have shorter : ∀ {tokens tree rest}, readWithin bound tokens = .ok (tree, rest) →
          rest.length ≤ tokens.length := by
        intro tokens tree rest h
        rw [tokens_of_readWithin h, List.length_append]
        exact Nat.le_add_left _ _
      have below := scanFrom_add_eq shorter fun pending _ enough => ih pending enough
      rw [scanFrom_cons, readWithin]
      cases token.shape with
      | error error => rfl
      | ok shape =>
        show scanFrom (pending + shape.arity) rest =
          (readMany (readWithin bound) shape.arity rest >>= fun result =>
            .ok (node shape.rule token result.1, result.2)) >>= _
        rw [below pending shape.arity (Nat.le_of_succ_le_succ enough)]
        cases readMany (readWithin bound) shape.arity rest <;> rfl

theorem ofTokens_eq {tokens : List Token} (nonempty : tokens ≠ []) :
    ofTokens tokens = readWithin tokens.length tokens >>= fun result =>
      match result.2.head? with
      | some extra => .error (.trailingTokens extra)
      | none => .ok result.1 := by
  unfold ofTokens
  rw [if_neg (by simpa using nonempty)]
  show (read tokens 0 >>= _) = _
  rw [read, List.drop_zero]
  cases hread : readWithin tokens.length tokens with
  | error error => rfl
  | ok result =>
    obtain ⟨tree, rest⟩ := result
    have next : tokens[0 + (tokens.length - rest.length)]? = rest.head? := by
      rw [tokens_of_readWithin hread, List.length_append, Nat.add_sub_cancel, Nat.zero_add,
        List.getElem?_append_right (Nat.le_refl _), Nat.sub_self, List.head?_eq_getElem?]
    show (match tokens[0 + (tokens.length - rest.length)]? with
      | some extra => Except.error (ParseError.trailingTokens extra)
      | none => .ok tree) = _
    rw [next]
    rfl

/-- The reader fails as the pass does, and succeeds if the pass does. -/
theorem map_ofTokens (tokens : List Token) :
    (ofTokens tokens).map (fun _ => ()) = scan tokens := by
  unfold scan
  split_ifs with empty
  · rw [empty]
    rfl
  · rw [ofTokens_eq empty, scanFrom_succ_eq 0 (Nat.le_refl _)]
    cases readWithin tokens.length tokens with
    | error error => rfl
    | ok result =>
      obtain ⟨tree, rest⟩ := result
      cases rest <;> rfl

/-! ### Continuations -/

/-- Whatever follows the tokens, either some number of expressions is still to come after them, or
their error is that of the whole. -/
theorem scanFrom_append_cases (pending : Nat) (tokens : List Token) :
    (∃ left, ∀ more, scanFrom pending (tokens ++ more) = scanFrom left more) ∨
      ∃ error, error ≠ .unexpectedEnd ∧
        ∀ more, scanFrom pending (tokens ++ more) = .error error := by
  induction tokens generalizing pending with
  | nil => exact .inl ⟨pending, fun more => rfl⟩
  | cons token rest ih =>
    cases pending with
    | zero => exact .inr ⟨.trailingTokens token, nofun, fun more => rfl⟩
    | succ pending =>
      simp only [List.cons_append, scanFrom]
      cases TokenShape.ofIndicator? token.indicator with
      | none => exact .inr ⟨.unknownIndicator token, nofun, fun more => rfl⟩
      | some shape =>
        dsimp only
        split_ifs
        · exact ih (pending + shape.arity)
        · exact .inr ⟨.malformedToken shape.rule token, nofun, fun more => rfl⟩

theorem ofTokens_eq_error_iff {tokens : List Token} {error : ParseError} :
    ofTokens tokens = .error error ↔ scan tokens = .error error := by
  rw [← map_ofTokens]
  cases ofTokens tokens <;> simp [Except.map]

theorem exists_ofTokens_eq_ok_iff {tokens : List Token} :
    (∃ tree, ofTokens tokens = .ok tree) ↔ scan tokens = .ok () := by
  rw [← map_ofTokens]
  cases ofTokens tokens <;> simp [Except.map]

/-- Any number of pending expressions can be provided. -/
theorem scanFrom_replicate (pending : Nat) :
    scanFrom pending (List.replicate pending (.ofLiteral "T" 0)) = .ok () := by
  induction pending with
  | zero => rfl
  | succ pending ih => exact ih

/-- The tokens end too early exactly if something can be put after them that completes them. -/
theorem scanFrom_eq_unexpectedEnd_iff {pending : Nat} {tokens : List Token} :
    scanFrom pending tokens = .error .unexpectedEnd ↔
      ∃ more, more ≠ [] ∧ scanFrom pending (tokens ++ more) = .ok () := by
  have alone := congrArg (scanFrom pending) (List.append_nil tokens)
  rcases scanFrom_append_cases pending tokens with ⟨left, follows⟩ | ⟨error, other, follows⟩
  · rw [← alone, follows]
    cases left with
    | zero =>
      refine ⟨nofun, ?_⟩
      rintro ⟨_ | ⟨first, more⟩, nonempty, complete⟩
      · exact absurd rfl nonempty
      · rw [follows] at complete
        cases complete
    | succ left =>
      refine ⟨fun _ => ⟨List.replicate (left + 1) (.ofLiteral "T" 0), nofun, ?_⟩, fun _ => rfl⟩
      rw [follows, scanFrom_replicate]
  · rw [← alone, follows]
    constructor
    · intro h
      exact absurd (Except.error.inj h) other
    · rintro ⟨more, -, complete⟩
      rw [follows] at complete
      cases complete

/-- After a complete expression the first further token is to blame, whatever it is and whatever
follows it. -/
theorem scanFrom_append_of_complete {pending : Nat} {tokens : List Token}
    (complete : scanFrom pending tokens = .ok ()) (first : Token) (rest : List Token) :
    scanFrom pending (tokens ++ first :: rest) = .error (.trailingTokens first) := by
  rw [← List.append_nil tokens] at complete
  rcases scanFrom_append_cases pending tokens with ⟨left, follows⟩ | ⟨error, -, follows⟩
  · rw [follows] at complete ⊢
    cases left with
    | zero => rfl
    | succ left => cases complete
  · rw [follows] at complete
    cases complete

/-- The reader agrees with a single pass over the tokens, in what it accepts and in every error with
its token.  An end that comes too early is reported exactly for the beginnings of expressions that
are neither empty nor whole, and what follows a whole expression does not change the report. -/
theorem ofTokens_eq_scan (tokens : List Token) :
    (ofTokens tokens).map (fun _ => ()) = scan tokens ∧
    (ofTokens tokens = .error .unexpectedEnd ↔
      tokens ≠ [] ∧ ∃ more, more ≠ [] ∧ ∃ tree, ofTokens (tokens ++ more) = .ok tree) ∧
    ∀ tree first rest, ofTokens tokens = .ok tree →
      ofTokens (tokens ++ first :: rest) = .error (.trailingTokens first) := by
  refine ⟨map_ofTokens tokens, ?_, fun tree first rest whole => ?_⟩
  · simp only [ofTokens_eq_error_iff, exists_ofTokens_eq_ok_iff]
    by_cases empty : tokens = []
    · rw [empty]
      exact ⟨nofun, fun h => absurd rfl h.1⟩
    · simp only [scan, List.append_eq_nil_iff, empty, false_and, if_false,
        scanFrom_eq_unexpectedEnd_iff, ne_eq, not_false_eq_true, true_and]
  · have complete := exists_ofTokens_eq_ok_iff.1 ⟨tree, whole⟩
    unfold scan at complete
    split_ifs at complete with empty
    rw [ofTokens_eq_error_iff, scan, if_neg (by simp)]
    exact scanFrom_append_of_complete complete first rest

/-- An application without its argument, and a whole expression with two tokens too many, of which
the second could not be read at all. -/
theorem ofTokens_eq_scan_unfinished :
    ofTokens (Token.scan "B$ L! v!") = .error .unexpectedEnd ∧
    (∃ more, more ≠ [] ∧ ∃ tree, ofTokens (Token.scan "B$ L! v!" ++ more) = .ok tree) ∧
    ofTokens (Token.scan "T" ++ [.ofLiteral "F" 1, .ofLiteral "Z" 2]) =
      .error (.trailingTokens (.ofLiteral "F" 1)) := by
  have unfinished : scan (Token.scan "B$ L! v!") = .error .unexpectedEnd := by cbv
  have report : ofTokens (Token.scan "B$ L! v!") = .error .unexpectedEnd :=
    ofTokens_eq_error_iff.2 unfinished
  have whole : ofTokens (Token.scan "T") = .ok (.node .boolean (.ofLiteral "T" 0) []) := by cbv
  exact ⟨report, ((ofTokens_eq_scan _).2.1.1 report).2, (ofTokens_eq_scan _).2.2 _ _ _ whole⟩

end ParseTree

end Lambda94
