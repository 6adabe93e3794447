import Lambda94.Proofs.Reference
import Lambda94.Proofs.StringBody

/-!
# Program text written from an expression

An expression is written as a list of words, `Expr.words`, which is what `Expr.wireTokens` returns
if its strings can be encoded and its variables read back: `wireTokens_eq_ok_iff`.  There are no
blanks in the words, so the text that separates them by spaces is scanned into their tokens:
`Expr.scan_text`.
-/

namespace Lambda94

/-! ### Bodies -/

namespace Wire

theorem isBlank_of_printable {u : UInt16} (h : Printable u) : Text.isBlank u = false := by
  have apart : ∀ n ∈ Text.blanks, n < 33 ∨ 126 < n := by decide
  rw [Text.isBlank, List.contains_eq_mem, decide_eq_false_iff_not]
  intro hmem
  rcases apart _ hmem with hlt | hlt
  · exact Nat.not_lt.2 h.1 hlt
  · exact Nat.not_lt.2 h.2 hlt

theorem isBlank_of_mem_encodeNat {n : Nat} {u : UInt16} (h : u ∈ encodeNat n) :
    Text.isBlank u = false :=
  isBlank_of_printable (printable_of_mem_encodeNat h)

theorem isBlank_of_mem_encodeString {s : Text} (hs : ∀ u ∈ s, u ∈ alphabet) {u : UInt16}
    (h : u ∈ encodeString s) : Text.isBlank u = false :=
  isBlank_of_printable (printable_of_mem_encodeString hs u h)

end Wire

/-! ### Words -/

/-- A token before it has a place in a text. -/
structure Word where
  indicator : Char
  body : Text

namespace Word

/-- The word as it is written. -/
def text (word : Word) : Text := Text.unit word.indicator :: word.body

/-- The word as the token of a given position. -/
def token (word : Word) (position : Nat) : Token :=
  ⟨[Text.unit word.indicator], word.body, word.text, position⟩

/-- The tokens of words, the first of them at the given position. -/
def tokens (words : List Word) (position : Nat) : List Token :=
  (words.zipIdx position).map fun (word, position) => word.token position

theorem tokens_cons (word : Word) (words : List Word) (position : Nat) :
    tokens (word :: words) position = word.token position :: tokens words (position + 1) := rfl

theorem tokens_append (words words' : List Word) (position : Nat) :
    tokens (words ++ words') position =
      tokens words position ++ tokens words' (position + words.length) := by
  rw [tokens, List.zipIdx_append, List.map_append, tokens, tokens]

/-- The indicators of the grammar. -/
def indicators : List Char := ['T', 'F', 'I', 'S', 'U', 'B', '?', 'L', 'v']

/-- The indicator is one of the grammar, and there is no blank in the body. -/
structure Plain (word : Word) : Prop where
  indicator : word.indicator ∈ indicators
  body : ∀ u ∈ word.body, Text.isBlank u = false

theorem Plain.words_text {word : Word} (h : word.Plain) : Text.words word.text = [word.text] := by
  have visible : (indicators.any fun c => Text.isBlank (Text.unit c)) = false := by decide
  refine Text.words_eq_singleton (List.cons_ne_nil _ _) (List.forall_mem_cons.2 ⟨?_, h.body⟩)
  exact eq_false_of_ne_true (List.any_eq_false.1 visible _ h.indicator)

/-- Words without blanks are found again in the text that separates them by spaces. -/
theorem scan_intercalate {words : List Word} (h : ∀ word ∈ words, word.Plain) :
    Token.scan (List.intercalate " " (words.map text)) = tokens words 0 := by
  have hwords : Text.words (List.intercalate " " (words.map text)) = words.map text := by
    induction words with
    | nil => rfl
    | cons word words ih =>
      obtain ⟨hword, hrest⟩ := List.forall_mem_cons.1 h
      cases words with
      | nil => simpa using hword.words_text
      | cons next words =>
        have space : Text.ofString " " = [Text.unit ' '] := rfl
        rw [List.map_cons, List.map_cons, List.intercalate_cons_cons, ← List.map_cons,
          List.append_assoc, space, List.singleton_append, Text.words_append_blank (by decide),
          ← space, ih hrest]
        exact congrArg (· ++ _) hword.words_text
  rw [Token.scan, hwords, List.zipIdx_map, List.map_map, tokens]
  rfl

end Word

/-! ### Words of an expression -/

theorem UnaryOp.isBlank_code (op : UnaryOp) :
    ∀ u ∈ Text.ofChar op.code, Text.isBlank u = false := by
  cases op <;> exact List.forall_mem_singleton.2 (by decide)

theorem BinaryOp.isBlank_code (op : BinaryOp) :
    ∀ u ∈ Text.ofChar op.code, Text.isBlank u = false := by
  rcases op with op | _
  · cases op <;> exact List.forall_mem_singleton.2 (by decide)
  · exact List.forall_mem_singleton.2 (by decide)

/-- The words of a value. -/
def Value.words : Value → List Word
  | .bool true => [⟨'T', ""⟩]
  | .bool false => [⟨'F', ""⟩]
  | .str s => [⟨'S', Wire.encodeString s⟩]
  | .int n =>
    if n < 0 then [⟨'U', "-"⟩, ⟨'I', Wire.encodeNat n.natAbs⟩] else [⟨'I', Wire.encodeNat n.natAbs⟩]

/-- The alphabet has every character of the value, if it is a string. -/
def Value.Encodable : Value → Prop
  | .str s => ∀ u ∈ s, u ∈ Wire.alphabet
  | _ => True

/-- The value, if it is an integer, has 64 bits. -/
def Value.Fits : Value → Prop
  | .int n => -2 ^ 63 ≤ n ∧ n < 2 ^ 63
  | _ => True

namespace Expr

/-- The words of an expression, with ids written by their absolute values. -/
def words : Expr → List Word
  | .lit value => value.words
  | .unary op operand => ⟨'U', Text.ofChar op.code⟩ :: operand.words
  | .binary op left right => ⟨'B', Text.ofChar op.code⟩ :: (left.words ++ right.words)
  | .cond c t e => ⟨'?', ""⟩ :: (c.words ++ t.words ++ e.words)
  | .lam binder body => ⟨'L', Wire.encodeNat binder.natAbs⟩ :: body.words
  | .var id => [⟨'v', Wire.encodeNat id.natAbs⟩]

/-- The text of an expression with ids written by their absolute values, whether or not they are
read back. -/
def text (expr : Expr) : Text := List.intercalate " " (expr.words.map Word.text)

/-- Every string is written in the string alphabet. -/
def Encodable : Expr → Prop := Each Value.Encodable (fun _ => True) fun _ => True

/-- Integers have 64 bits, and the absolute values of ids have 63. -/
def Fits : Expr → Prop := Each Value.Fits (·.natAbs < 2 ^ 63) (·.natAbs < 2 ^ 63)

end Expr

theorem Wire.unencodable?_eq_none_iff {s : Text} :
    Wire.unencodable? s = none ↔ ∀ u ∈ s, u ∈ Wire.alphabet := by
  rw [← forall_characters_mem_letters]
  simp [Wire.unencodable?]

theorem Value.wireTokens_eq_ok_iff {value : Value} {tokens : List Text} :
    value.wireTokens = .ok tokens ↔ value.Encodable ∧ tokens = value.words.map Word.text := by
  rcases value with s | b | n
  · cases hs : Wire.unencodable? s with
    | none =>
      have encodable : Encodable (.str s) := Wire.unencodable?_eq_none_iff.1 hs
      simp only [wireTokens, hs, encodable, true_and]
      exact ⟨fun h => (Except.ok.inj h).symm, fun h => congrArg _ h.symm⟩
    | some c =>
      have notEncodable : ¬ Encodable (.str s) := by
        intro h
        rw [Wire.unencodable?_eq_none_iff.2 h] at hs
        cases hs
      simp [wireTokens, hs, notEncodable]
  · cases b
    · exact ⟨fun h => ⟨trivial, (Except.ok.inj h).symm⟩, fun h => congrArg _ h.2.symm⟩
    · exact ⟨fun h => ⟨trivial, (Except.ok.inj h).symm⟩, fun h => congrArg _ h.2.symm⟩
  · rw [wireTokens, words]
    split_ifs
    · exact ⟨fun h => ⟨trivial, (Except.ok.inj h).symm⟩, fun h => congrArg _ h.2.symm⟩
    · exact ⟨fun h => ⟨trivial, (Except.ok.inj h).symm⟩, fun h => congrArg _ h.2.symm⟩

namespace Expr

/-- An expression can be written exactly if its strings can be encoded and its variables read
back. -/
theorem wireTokens_eq_ok_iff {expr : Expr} {binders : List Int} {tokens : List Text} :
    expr.wireTokens binders = .ok tokens ↔
      expr.Encodable ∧ expr.ReadsBack binders ∧ tokens = expr.words.map Word.text := by
  induction expr generalizing binders tokens with
  | lit value =>
    rw [wireTokens, Value.wireTokens_eq_ok_iff]
    simp [Encodable, Each, ReadsBack, words]
  | unary op operand ih =>
    rw [wireTokens]
    constructor
    · intro h
      obtain ⟨tokens₁, h₁, h⟩ := bind_eq_ok_iff.1 h
      cases h
      obtain ⟨encodable, reads, rfl⟩ := ih.1 h₁
      exact ⟨encodable, reads, rfl⟩
    · rintro ⟨encodable, reads, rfl⟩
      exact bind_eq_ok_iff.2 ⟨_, ih.2 ⟨encodable, reads, rfl⟩, rfl⟩
  | binary op left right ihl ihr =>
    rw [wireTokens]
    constructor
    · intro h
      obtain ⟨tokens₁, h₁, h⟩ := bind_eq_ok_iff.1 h
      obtain ⟨tokens₂, h₂, h⟩ := bind_eq_ok_iff.1 h
      cases h
      obtain ⟨encodable₁, reads₁, rfl⟩ := ihl.1 h₁
      obtain ⟨encodable₂, reads₂, rfl⟩ := ihr.1 h₂
      exact ⟨⟨encodable₁, encodable₂⟩, ⟨reads₁, reads₂⟩,
        by rw [words, List.map_cons, List.map_append]; rfl⟩
    · rintro ⟨⟨encodable₁, encodable₂⟩, ⟨reads₁, reads₂⟩, rfl⟩
      refine bind_eq_ok_iff.2 ⟨_, ihl.2 ⟨encodable₁, reads₁, rfl⟩, bind_eq_ok_iff.2
        ⟨_, ihr.2 ⟨encodable₂, reads₂, rfl⟩, ?_⟩⟩
      rw [words, List.map_cons, List.map_append]
      rfl
  | cond c t e ihc iht ihe =>
    rw [wireTokens]
    constructor
    · intro h
      obtain ⟨tokens₁, h₁, h⟩ := bind_eq_ok_iff.1 h
      obtain ⟨tokens₂, h₂, h⟩ := bind_eq_ok_iff.1 h
      obtain ⟨tokens₃, h₃, h⟩ := bind_eq_ok_iff.1 h
      cases h
      obtain ⟨encodable₁, reads₁, rfl⟩ := ihc.1 h₁
      obtain ⟨encodable₂, reads₂, rfl⟩ := iht.1 h₂
      obtain ⟨encodable₃, reads₃, rfl⟩ := ihe.1 h₃
      exact ⟨⟨encodable₁, encodable₂, encodable₃⟩, ⟨reads₁, reads₂, reads₃⟩,
        by rw [words, List.map_cons, List.map_append, List.map_append]; rfl⟩
    · rintro ⟨⟨encodable₁, encodable₂, encodable₃⟩, ⟨reads₁, reads₂, reads₃⟩, rfl⟩
      refine bind_eq_ok_iff.2 ⟨_, ihc.2 ⟨encodable₁, reads₁, rfl⟩, bind_eq_ok_iff.2
        ⟨_, iht.2 ⟨encodable₂, reads₂, rfl⟩, bind_eq_ok_iff.2
          ⟨_, ihe.2 ⟨encodable₃, reads₃, rfl⟩, ?_⟩⟩⟩
      rw [words, List.map_cons, List.map_append, List.map_append]
      rfl
  | lam binder body ih =>
    rw [wireTokens]
    constructor
    · intro h
      obtain ⟨tokens₁, h₁, h⟩ := bind_eq_ok_iff.1 h
      cases h
      obtain ⟨encodable, reads, rfl⟩ := ih.1 h₁
      exact ⟨⟨trivial, encodable⟩, reads, rfl⟩
    · rintro ⟨⟨-, encodable⟩, reads, rfl⟩
      exact bind_eq_ok_iff.2 ⟨_, ih.2 ⟨encodable, reads, rfl⟩, rfl⟩
  | var id =>
    rw [wireTokens]
    split_ifs with reads
    · exact ⟨fun h => ⟨trivial, reads, (Except.ok.inj h).symm⟩, fun h => congrArg _ h.2.2.symm⟩
    · constructor
      · intro h
        cases h
      · exact fun h => absurd h.2.1 reads

end Expr

/-! ### Scanning the text -/

theorem Value.plain_of_mem_words {value : Value} (encodable : value.Encodable) {word : Word}
    (h : word ∈ value.words) : word.Plain := by
  have numeral : ∀ n, Word.Plain ⟨'I', Wire.encodeNat n⟩ :=
    fun n => ⟨by simp [Word.indicators], fun u hu => Wire.isBlank_of_mem_encodeNat hu⟩
  rcases value with s | b | n
  · rw [List.mem_singleton.1 h]
    exact ⟨by simp [Word.indicators], fun u hu => Wire.isBlank_of_mem_encodeString encodable hu⟩
  · cases b with
    | false | true =>
      rw [List.mem_singleton.1 h]
      exact ⟨by simp [Word.indicators], nofun⟩
  · rw [words] at h
    split_ifs at h
    · rcases List.mem_cons.1 h with rfl | h
      · exact ⟨by simp [Word.indicators], List.forall_mem_singleton.2 (by decide)⟩
      · rw [List.mem_singleton.1 h]
        exact numeral _
    · rw [List.mem_singleton.1 h]
      exact numeral _

theorem Expr.plain_of_mem_words {expr : Expr} (encodable : expr.Encodable) {word : Word}
    (h : word ∈ expr.words) : word.Plain := by
  induction expr with
  | lit value => exact value.plain_of_mem_words encodable h
  | unary op operand ih =>
    rcases List.mem_cons.1 h with rfl | h
    · exact ⟨by simp [Word.indicators], op.isBlank_code⟩
    · exact ih encodable h
  | binary op left right ihl ihr =>
    rcases List.mem_cons.1 h with rfl | h
    · exact ⟨by simp [Word.indicators], op.isBlank_code⟩
    · rcases List.mem_append.1 h with h | h
      · exact ihl encodable.1 h
      · exact ihr encodable.2 h
  | cond c t e ihc iht ihe =>
    rcases List.mem_cons.1 h with rfl | h
    · exact ⟨by simp [Word.indicators], nofun⟩
    · rcases List.mem_append.1 h with h | h
      · rcases List.mem_append.1 h with h | h
        · exact ihc encodable.1 h
        · exact iht encodable.2.1 h
      · exact ihe encodable.2.2 h
  | lam binder body ih =>
    rcases List.mem_cons.1 h with rfl | h
    · exact ⟨by simp [Word.indicators], fun u hu => Wire.isBlank_of_mem_encodeNat hu⟩
    · exact ih encodable.2 h
  | var id =>
    rw [List.mem_singleton.1 h]
    exact ⟨by simp [Word.indicators], fun u hu => Wire.isBlank_of_mem_encodeNat hu⟩

theorem Expr.scan_text {expr : Expr} (encodable : expr.Encodable) :
    Token.scan expr.text = Word.tokens expr.words 0 :=
  Word.scan_intercalate fun _ h => expr.plain_of_mem_words encodable h

end Lambda94
