import Lambda94.Expr.Pretty
import Lambda94.Proofs.JsonText

/-!
# Unique reading of readable expressions

No two expressions are written alike: `pretty_injective`.

In front of other text, an expression is read off in one way only if that text does not go on where
the last word of the expression ends, as a digit does after `v1`.  So what follows is to begin with
a break (`AtBreak`), and `Expr.Readable` says that an expression is then the only one that can have
been written, and that it ends in one place only.  Inside brackets stand pieces, each of which is
followed by a break; a keyword is no expression (`pretty_append_ne_keyword`), so that the pieces can
be told apart, and they make up the expression (`Expr.eq_of_pieces_eq`).
-/

namespace Lambda94

/-! ### Words -/

namespace Text

/-- A unit that ends a word. -/
def isBreak (u : UInt16) : Bool := u == unit ' ' || u == unit ')' || u == unit '.'

/-- A text that begins with a break, if it is not empty. -/
def AtBreak (text : Text) : Prop := ∀ u ∈ text.head?, isBreak u = true

theorem atBreak_nil : AtBreak [] := nofun

theorem atBreak_cons {u : UInt16} (h : isBreak u = true) (text : Text) : AtBreak (u :: text) := by
  rintro _ ⟨⟩
  exact h

/-- A word without breaks ends where the first break is. -/
theorem eq_of_append_eq_of_atBreak {xs ys s t : Text} (hx : ∀ u ∈ xs, isBreak u = false)
    (hy : ∀ u ∈ ys, isBreak u = false) (hs : AtBreak s) (ht : AtBreak t)
    (h : xs ++ s = ys ++ t) : xs = ys ∧ s = t := by
  have run : ∀ {zs r : Text}, (∀ u ∈ zs, isBreak u = false) → AtBreak r →
      (zs ++ r).takeWhile (fun u => !isBreak u) = zs := by
    intro zs r hz hr
    rw [List.takeWhile_append_of_pos fun u hu => by rw [hz u hu, Bool.not_false]]
    cases r with
    | nil => exact List.append_nil zs
    | cons u r =>
      rw [List.takeWhile_cons_of_neg (by simp [hr u rfl]), List.append_nil]
  obtain rfl : xs = ys := by rw [← run hx hs, h, run hy ht]
  exact ⟨rfl, List.append_cancel_left h⟩

end Text

namespace Decimal

theorem isBreak_digitUnit {d : Nat} (h : d < 10) : Text.isBreak (digitUnit d) = false := by
  have all : ∀ e ∈ List.range 10, Text.isBreak (digitUnit e) = false := by decide
  exact all d (List.mem_range.2 h)

theorem isBreak_of_mem_ofNat {n : Nat} {u : UInt16} (h : u ∈ ofNat n) : Text.isBreak u = false := by
  obtain ⟨d, hd, rfl⟩ := List.mem_map.1 h
  exact isBreak_digitUnit (Numeral.lt_of_mem_digits (by omega) hd)

theorem isBreak_of_mem_ofInt {n : Int} {u : UInt16} (h : u ∈ ofInt n) : Text.isBreak u = false := by
  cases n with
  | ofNat n => exact isBreak_of_mem_ofNat h
  | negSucc n =>
    rcases List.mem_cons.1 h with rfl | h
    · rfl
    · exact isBreak_of_mem_ofNat h

theorem ofInt_injective : Function.Injective ofInt := by
  intro n n' h
  have read := congrArg toInt? h
  rwa [toInt?_ofInt, toInt?_ofInt, Option.some.injEq] at read

end Decimal

open Text

/-- The first units of functions, of variables and of what stands in brackets. -/
def openings : List UInt16 := [unit 'λ', unit 'v', unit '(']

/-! ### Values -/

namespace Value

/-- A value that is not a string is written in one word. -/
theorem isBreak_of_mem_pretty {value : Value} (h : value.kind ≠ .string) {u : UInt16}
    (hu : u ∈ value.pretty) : isBreak u = false := by
  cases value with
  | str s => exact absurd rfl h
  | int n => exact Decimal.isBreak_of_mem_ofInt hu
  | bool b =>
    have plain : (bool b).pretty.any isBreak = false := by cases b <;> decide
    exact eq_false_of_ne_true (List.any_eq_false.1 plain u hu)

/-- The first unit tells a string from the other values, and a value from what is no
literal. -/
theorem exists_cons_pretty (value : Value) : ∃ u text, value.pretty = u :: text ∧
    u ∉ openings ∧ (u = quotationMark ↔ value.kind = .string) := by
  cases value with
  | str s => exact ⟨quotationMark, _, rfl, by decide, iff_of_true rfl rfl⟩
  | bool b => cases b <;> exact ⟨_, _, rfl, by decide, by decide⟩
  | int n =>
    cases n with
    | negSucc n => exact ⟨Decimal.minus, _, rfl, by decide, iff_of_false (by decide) nofun⟩
    | ofNat n =>
      obtain ⟨u, text, htext⟩ := List.exists_cons_of_ne_nil (Decimal.ofNat_ne_nil n)
      have mem : u ∈ Decimal.ofNat n := htext ▸ List.mem_cons_self
      obtain ⟨d, hd, rfl⟩ := List.mem_map.1 mem
      have all : ∀ e ∈ List.range 10, Decimal.digitUnit e ∉ openings ∧
          Decimal.digitUnit e ≠ quotationMark := by
        decide
      obtain ⟨other, noQuote⟩ :=
        all d (List.mem_range.2 (Numeral.lt_of_mem_digits (by omega) hd))
      exact ⟨_, text, htext, other, iff_of_false noQuote nofun⟩

/-- Values that are not strings are told apart by their words. -/
theorem eq_of_pretty_eq {value value' : Value} (h : value.kind ≠ .string)
    (h' : value'.kind ≠ .string) (heq : value.pretty = value'.pretty) :
    value = value' := by
  have noNumber : ∀ b, Decimal.toInt? (bool b).pretty = none := by decide
  have read := congrArg Decimal.toInt? heq
  cases value with
  | str s => exact absurd rfl h
  | bool b =>
    cases value' with
    | str s' => exact absurd rfl h'
    | int n' => rw [noNumber, pretty, Decimal.toInt?_ofInt] at read; cases read
    | bool b' => cases b <;> cases b' <;> first | rfl | exact absurd heq (by decide)
  | int n =>
    cases value' with
    | str s' => exact absurd rfl h'
    | bool b' => rw [noNumber, pretty, Decimal.toInt?_ofInt] at read; cases read
    | int n' => rw [Decimal.ofInt_injective heq]

theorem eq_of_pretty_append_eq {value value' : Value} {s t : Text} (hs : AtBreak s)
    (ht : AtBreak t) (h : value.pretty ++ s = value'.pretty ++ t) :
    value = value' ∧ s = t := by
  obtain ⟨u, text, htext, -, hstring⟩ := value.exists_cons_pretty
  obtain ⟨u', text', htext', -, hstring'⟩ := value'.exists_cons_pretty
  obtain rfl : u = u' := by
    rw [htext, htext'] at h
    exact (List.cons.inj h).1
  by_cases hkind : value.kind = .string
  · have hkind' : value'.kind = .string := hstring'.1 (hstring.2 hkind)
    cases value with
    | bool | int => cases hkind
    | str x =>
      cases value' with
      | bool | int => cases hkind'
      | str y =>
        rw [pretty, pretty, quoted_append, quoted_append] at h
        have read := congrArg Json.readString (List.cons.inj h).2
        rw [Json.readString_escaped, Json.readString_escaped] at read
        obtain ⟨rfl, rfl⟩ := Prod.mk.inj (Option.some.inj read)
        exact ⟨rfl, rfl⟩
  · have hkind' : value'.kind ≠ .string := fun hk => hkind (hstring.1 (hstring'.2 hk))
    obtain ⟨heq, rfl⟩ := eq_of_append_eq_of_atBreak (fun _ => isBreak_of_mem_pretty hkind)
      (fun _ => isBreak_of_mem_pretty hkind') hs ht h
    exact ⟨eq_of_pretty_eq hkind hkind' heq, rfl⟩

end Value

/-! ### Pieces -/

theorem UnaryOp.symbol_injective : Function.Injective fun op : UnaryOp => (op.symbol : Text) := by
  intro op op' h
  cases op <;> cases op' <;> first | rfl | exact absurd h (by decide)

theorem StrictOp.symbol_injective :
    Function.Injective fun op : StrictOp => (op.symbol : Text) := by
  have all : ∀ op ∈ all, ∀ op' ∈ all, (op.symbol : Text) = op'.symbol → op = op' := by decide
  have mem : ∀ op, op ∈ StrictOp.all := fun op => by cases op <;> decide
  exact fun op op' => all op (mem op) op' (mem op')

/-- What stands between the brackets of an expression. -/
inductive Piece
  | keyword (word : Text)
  | part (expr : Expr)

/-- A piece as it is written. -/
def Piece.text : Piece → Text
  | .keyword word => word
  | .part expr => expr.pretty

/-- Pieces, each with a space in front of it, then the closing bracket and what follows it. -/
def Piece.line (rest : Text) : List Piece → Text
  | [] => unit ')' :: rest
  | piece :: pieces => unit ' ' :: (piece.text ++ line rest pieces)

theorem Piece.atBreak_line (rest : Text) (pieces : List Piece) :
    AtBreak (line rest pieces) := by
  cases pieces <;> exact atBreak_cons rfl _

/-- The words that stand between brackets besides expressions. -/
def keywords : List Text :=
  UnaryOp.all.map (·.symbol) ++ StrictOp.all.map (·.symbol) ++ ["if", "then", "else"]

namespace Expr

/-- The pieces of an expression that is written in brackets. -/
def pieces : Expr → List Piece
  | .unary op operand => [.keyword op.symbol, .part operand]
  | .binary (.strict op) left right => [.part left, .keyword op.symbol, .part right]
  | .binary .apply fn arg => [.part fn, .part arg]
  | .cond c t e =>
    [.keyword "if", .part c, .keyword "then", .part t, .keyword "else",
      .part e]
  | _ => []

/-- The first unit of an expression that is not a literal. -/
def opening? : Expr → Option UInt16
  | .lit _ => none
  | .lam .. => some (unit 'λ')
  | .var _ => some (unit 'v')
  | _ => some (unit '(')

/-- An expression that has pieces is written with them. -/
theorem pretty_append_eq_line {expr : Expr} (h : expr.opening? = some (unit '(')) (rest : Text) :
    ∃ tail, expr.pretty ++ rest = unit '(' :: tail ∧
      Piece.line rest expr.pieces = unit ' ' :: tail := by
  cases expr with
  | lit | lam | var => cases h
  | unary op operand => simp [Expr.pretty, pieces, Piece.line, Piece.text, ofString, ofChar]
  | binary op left right =>
    cases op <;> simp [Expr.pretty, pieces, Piece.line, Piece.text, ofString, ofChar]
  | cond c t e => simp [Expr.pretty, pieces, Piece.line, Piece.text, ofString, ofChar]

theorem pretty_var (id : Int) : (var id).pretty = unit 'v' :: Decimal.ofInt id := rfl

theorem pretty_lam (binder : Int) (body : Expr) :
    (lam binder body).pretty =
      unit 'λ' :: unit 'v' :: (Decimal.ofInt binder ++ unit '.' :: body.pretty) :=
  List.append_assoc (_ :: _ :: _) _ _

/-- The first unit tells literals, functions, variables and what stands in brackets apart. -/
theorem exists_cons_pretty (expr : Expr) : ∃ u text, expr.pretty = u :: text ∧
    expr.opening? = if u ∈ openings then some u else none := by
  by_cases bracketed : expr.opening? = some (unit '(')
  · obtain ⟨tail, htail, -⟩ := pretty_append_eq_line bracketed []
    rw [List.append_nil] at htail
    exact ⟨unit '(', tail, htail, bracketed⟩
  · cases expr with
    | lit value =>
      obtain ⟨u, text, htext, other, -⟩ := value.exists_cons_pretty
      exact ⟨u, text, htext, (if_neg other).symm⟩
    | lam binder body => exact ⟨unit 'λ', _, pretty_lam binder body, rfl⟩
    | var id => exact ⟨unit 'v', _, pretty_var id, rfl⟩
    | unary | binary | cond => exact absurd rfl bracketed

theorem opening?_eq_of_append_eq {expr expr' : Expr} {s t : Text}
    (h : expr.pretty ++ s = expr'.pretty ++ t) :
    expr.opening? = expr'.opening? := by
  obtain ⟨u, text, htext, hopening⟩ := expr.exists_cons_pretty
  obtain ⟨u', text', htext', hopening'⟩ := expr'.exists_cons_pretty
  rw [htext, htext'] at h
  rw [hopening, hopening', (List.cons.inj h).1]

/-- What stands between brackets makes up the expression. -/
theorem eq_of_pieces_eq {expr expr' : Expr} (h : expr.opening? = some (unit '('))
    (h' : expr'.opening? = some (unit '(')) (heq : expr.pieces = expr'.pieces) : expr = expr' := by
  cases expr with
  | lit | lam | var => cases h
  | unary op operand =>
    cases expr' with
    | lit | lam | var => cases h'
    | binary op' => cases op' <;> simp [pieces] at heq
    | cond => simp [pieces] at heq
    | unary op' operand' =>
      simp only [pieces, List.cons.injEq, Piece.keyword.injEq, Piece.part.injEq] at heq
      obtain ⟨hop, rfl, -⟩ := heq
      rw [UnaryOp.symbol_injective hop]
  | binary op left right =>
    cases expr' with
    | lit | lam | var => cases h'
    | unary => cases op <;> simp [pieces] at heq
    | cond => cases op <;> simp [pieces] at heq
    | binary op' left' right' =>
      cases op <;> cases op' <;>
        simp only [pieces, List.cons.injEq, Piece.keyword.injEq, Piece.part.injEq, reduceCtorEq,
          and_false] at heq
      · obtain ⟨rfl, hop, rfl, -⟩ := heq
        rw [StrictOp.symbol_injective hop]
      · obtain ⟨rfl, rfl, -⟩ := heq
        rfl
  | cond c t e =>
    cases expr' with
    | lit | lam | var => cases h'
    | unary => simp [pieces] at heq
    | binary op' => cases op' <;> simp [pieces] at heq
    | cond c' t' e' =>
      simp only [pieces, List.cons.injEq, Piece.part.injEq] at heq
      obtain ⟨-, rfl, -, rfl, -, rfl, -⟩ := heq
      rfl

/-- In front of a break, the expression is the only one that can have been written, and it ends in
one place only. -/
def Readable (expr : Expr) : Prop :=
  ∀ (expr' : Expr) (s t : Text), AtBreak s → AtBreak t →
    expr.pretty ++ s = expr'.pretty ++ t → expr = expr' ∧ s = t

end Expr

/-! ### Telling pieces apart -/

theorem isBreak_of_mem_keyword (word : Text) (hword : word ∈ keywords) :
    ∀ u ∈ word, isBreak u = false := by
  have plain : ∀ word ∈ keywords, word.any isBreak = false := by decide
  exact fun u hu => eq_false_of_ne_true (List.any_eq_false.1 (plain word hword) u hu)

/-- A keyword is no expression, in whole or as a first word. -/
theorem pretty_append_ne_keyword (expr : Expr) {word : Text} (hword : word ∈ keywords)
    {s t : Text} (hs : AtBreak s) (ht : AtBreak t) :
    expr.pretty ++ s ≠ word ++ t := by
  intro h
  have noOpening : ∀ word ∈ keywords, word ≠ [] ∧
      (word.head?.all fun u => u ∉ quotationMark :: openings) = true := by
    decide
  have noValue : ∀ word ∈ keywords, Decimal.toInt? word = none ∧
      ∀ b, (Value.bool b).pretty ≠ word := by
    decide
  obtain ⟨u, text, htext, hopening⟩ := expr.exists_cons_pretty
  have hother : u ∉ quotationMark :: openings := by
    obtain ⟨hne, hhead⟩ := noOpening word hword
    cases word with
    | nil => exact absurd rfl hne
    | cons d ds =>
      rw [htext] at h
      rw [(List.cons.inj h).1]
      exact of_decide_eq_true hhead
  cases expr with
  | unary | binary | cond | lam | var =>
    rw [if_neg fun hu => hother (List.mem_cons_of_mem _ hu)] at hopening
    cases hopening
  | lit value =>
    obtain ⟨u', text', htext', -, hstring⟩ := value.exists_cons_pretty
    obtain rfl : u = u' := (List.cons.inj (htext.symm.trans htext')).1
    have hkind : value.kind ≠ .string := by
      intro hk
      rw [hstring.2 hk] at hother
      exact hother (by decide)
    obtain ⟨hvalue, -⟩ := eq_of_append_eq_of_atBreak (fun _ => Value.isBreak_of_mem_pretty hkind)
      (isBreak_of_mem_keyword word hword) hs ht h
    obtain ⟨noNumber, noBool⟩ := noValue word hword
    cases value with
    | str => exact hkind rfl
    | bool b => exact noBool b hvalue
    | int n =>
      rw [← hvalue, Value.pretty, Decimal.toInt?_ofInt] at noNumber
      cases noNumber

/-- The keywords are from the list, and expressions can be read. -/
def Piece.Readable : Piece → Prop
  | .keyword word => word ∈ keywords
  | .part expr => expr.Readable

/-- A keyword of an expression is from the list. -/
theorem Expr.mem_keywords_of_mem_pieces {expr : Expr} {word : Text}
    (h : .keyword word ∈ expr.pieces) : word ∈ keywords := by
  have unary : ∀ op : UnaryOp, (op.symbol : Text) ∈ keywords := fun op => by cases op <;> decide
  have strict : ∀ op : StrictOp, (op.symbol : Text) ∈ keywords := fun op => by cases op <;> decide
  cases expr with
  | lit | lam | var => cases h
  | unary op operand =>
    simp only [pieces, List.mem_cons, Piece.keyword.injEq, reduceCtorEq, List.not_mem_nil,
      or_false] at h
    exact h ▸ unary op
  | binary op left right =>
    cases op with
    | apply => simp [pieces] at h
    | strict op =>
      simp only [pieces, List.mem_cons, Piece.keyword.injEq, reduceCtorEq, List.not_mem_nil,
        or_false, false_or] at h
      exact h ▸ strict op
  | cond c t e =>
    simp only [pieces, List.mem_cons, Piece.keyword.injEq, reduceCtorEq, List.not_mem_nil,
      or_false, false_or] at h
    rcases h with rfl | rfl | rfl <;> decide

namespace Piece

theorem eq_of_text_append_eq {piece piece' : Piece} (h : piece.Readable)
    (h' : ∀ word, piece' = .keyword word → word ∈ keywords) {s t : Text} (hs : AtBreak s)
    (ht : AtBreak t) (heq : piece.text ++ s = piece'.text ++ t) : piece = piece' ∧ s = t := by
  cases piece with
  | keyword word =>
    cases piece' with
    | keyword word' =>
      obtain ⟨rfl, rfl⟩ := eq_of_append_eq_of_atBreak (isBreak_of_mem_keyword word h)
        (isBreak_of_mem_keyword word' (h' word' rfl)) hs ht heq
      exact ⟨rfl, rfl⟩
    | part expr' => exact absurd heq.symm (pretty_append_ne_keyword expr' h ht hs)
  | part expr =>
    cases piece' with
    | keyword word' => exact absurd heq (pretty_append_ne_keyword expr (h' word' rfl) hs ht)
    | part expr' =>
      obtain ⟨rfl, rfl⟩ := h expr' s t hs ht heq
      exact ⟨rfl, rfl⟩

theorem eq_of_line_eq {pieces pieces' : List Piece} (h : ∀ piece ∈ pieces, piece.Readable)
    (h' : ∀ word, .keyword word ∈ pieces' → word ∈ keywords) {s t : Text}
    (heq : line s pieces = line t pieces') : pieces = pieces' ∧ s = t := by
  induction pieces generalizing pieces' with
  | nil =>
    cases pieces' with
    | nil => exact ⟨rfl, (List.cons.inj heq).2⟩
    | cons piece' pieces' => exact absurd (List.cons.inj heq).1 (by decide)
  | cons piece pieces ih =>
    cases pieces' with
    | nil => exact absurd (List.cons.inj heq).1 (by decide)
    | cons piece' pieces' =>
      obtain ⟨rfl, hline⟩ := eq_of_text_append_eq (h piece List.mem_cons_self)
        (fun word hword => h' word (hword ▸ List.mem_cons_self)) (atBreak_line s pieces)
        (atBreak_line t pieces') (List.cons.inj heq).2
      obtain ⟨rfl, rfl⟩ := ih (fun piece hp => h piece (List.mem_cons_of_mem _ hp))
        (fun word hword => h' word (List.mem_cons_of_mem _ hword)) hline
      exact ⟨rfl, rfl⟩

end Piece

/-! ### Expressions -/

namespace Expr

/-- What stands in brackets can be read if all that stands inside can. -/
theorem readable_of_parts {expr : Expr} (bracketed : expr.opening? = some (unit '('))
    (h : ∀ part, .part part ∈ expr.pieces → part.Readable) : expr.Readable := by
  intro expr' s t _ _ heq
  have hpieces : ∀ piece ∈ expr.pieces, piece.Readable := by
    intro piece hpiece
    cases piece with
    | keyword word => exact mem_keywords_of_mem_pieces hpiece
    | part part => exact h part hpiece
  have bracketed' : expr'.opening? = some (unit '(') :=
    (opening?_eq_of_append_eq heq).symm.trans bracketed
  obtain ⟨tail, htail, hline⟩ := pretty_append_eq_line bracketed s
  obtain ⟨tail', htail', hline'⟩ := pretty_append_eq_line bracketed' t
  have hlines : Piece.line s expr.pieces = Piece.line t expr'.pieces := by
    rw [htail, htail'] at heq
    rw [hline, hline', (List.cons.inj heq).2]
  obtain ⟨hsame, hrest⟩ :=
    Piece.eq_of_line_eq hpieces (fun word hword => mem_keywords_of_mem_pieces hword) hlines
  exact ⟨eq_of_pieces_eq bracketed bracketed' hsame, hrest⟩

/-- In front of a break every expression can be read. -/
theorem readable (expr : Expr) : expr.Readable := by
  induction expr with
  | lit value =>
    intro expr' s t hs ht heq
    have hopening := opening?_eq_of_append_eq heq
    cases expr' with
    | unary | binary | cond | lam | var => cases hopening
    | lit value' =>
      obtain ⟨rfl, rfl⟩ := Value.eq_of_pretty_append_eq hs ht heq
      exact ⟨rfl, rfl⟩
  | var id =>
    intro expr' s t hs ht heq
    have hopening := opening?_eq_of_append_eq heq
    cases expr' with
    | lit | unary | binary | cond | lam => cases hopening
    | var id' =>
      rw [pretty_var, pretty_var] at heq
      obtain ⟨hid, rfl⟩ := eq_of_append_eq_of_atBreak (fun _ => Decimal.isBreak_of_mem_ofInt)
        (fun _ => Decimal.isBreak_of_mem_ofInt) hs ht (List.cons.inj heq).2
      rw [Decimal.ofInt_injective hid]
      exact ⟨rfl, rfl⟩
  | lam binder body ih =>
    intro expr' s t hs ht heq
    have hopening := opening?_eq_of_append_eq heq
    cases expr' with
    | lit | unary | binary | cond | var => cases hopening
    | lam binder' body' =>
      simp only [pretty_lam, List.cons_append, List.append_assoc, List.cons.injEq,
        true_and] at heq
      -- The binder ends with the dot, after which comes the body.
      obtain ⟨hbinder, hbody⟩ := eq_of_append_eq_of_atBreak (fun _ => Decimal.isBreak_of_mem_ofInt)
        (fun _ => Decimal.isBreak_of_mem_ofInt) (atBreak_cons rfl _) (atBreak_cons rfl _) heq
      obtain ⟨rfl, rfl⟩ := ih body' s t hs ht (List.cons.inj hbody).2
      rw [Decimal.ofInt_injective hbinder]
      exact ⟨rfl, rfl⟩
  | unary op operand ih =>
    refine readable_of_parts rfl fun part h => ?_
    simp only [pieces, List.mem_cons, Piece.part.injEq, reduceCtorEq, List.not_mem_nil, or_false,
      false_or] at h
    exact h ▸ ih
  | binary op left right ihl ihr =>
    refine readable_of_parts rfl fun part h => ?_
    cases op <;>
      simp only [pieces, List.mem_cons, Piece.part.injEq, reduceCtorEq, List.not_mem_nil, or_false,
        false_or] at h <;>
      rcases h with rfl | rfl
    exacts [ihl, ihr, ihl, ihr]
  | cond c t e ihc iht ihe =>
    refine readable_of_parts rfl fun part h => ?_
    simp only [pieces, List.mem_cons, Piece.part.injEq, reduceCtorEq, List.not_mem_nil, or_false,
      false_or] at h
    rcases h with rfl | rfl | rfl
    exacts [ihc, iht, ihe]

end Expr

/-! ### Main result -/

/-- Expressions that are written alike are the same.  So the lines that show a program and, each
behind an arrow, the expressions that it steps to determine all of them. -/
theorem pretty_injective :
    Function.Injective Expr.pretty ∧
      Function.Injective fun shown : Expr × List Expr =>
        shown.1.pretty :: shown.2.map fun next => "-> " ++ next.pretty := by
  have hpretty : Function.Injective Expr.pretty := by
    intro expr expr' h
    exact (expr.readable expr' [] [] atBreak_nil atBreak_nil (by rw [h])).1
  have harrow : Function.Injective fun next : Expr => "-> " ++ next.pretty :=
    fun next next' h => hpretty (List.append_cancel_left h)
  refine ⟨hpretty, ?_⟩
  rintro ⟨expr, path⟩ ⟨expr', path'⟩ h
  obtain ⟨hfirst, hothers⟩ := List.cons.inj h
  exact Prod.ext (hpretty hfirst) (List.map_injective_iff.2 harrow hothers)

-- Half of a pair is written by its digits, so that two of them are told apart.
example : (Expr.lit (.str [0xD83D])).pretty = Text.ofString "\"\\ud83d\"" ∧
    (Expr.lit (.str [0xD83E])).pretty = Text.ofString "\"\\ud83e\"" := by
  decide

end Lambda94
