import Lambda94.Generate
import Lambda94.Proofs.FirstOrder
import Lambda94.Proofs.WrappedIds

/-!
# Random programs survive the wire

Whatever a source of integers answers, as long as it keeps to the bounds it is asked for, a program
comes out, and it is no deeper than asked for: `GenM.produces_expr`.  Its literals can be written,
its binders are small and not negative, and every variable is bound, often by one of several
functions with the same binder.

Such a program can be written and read: the functions get binders of their own, and every variable
keeps its referent.  What is read can be written and read once more, and comes back as it is:
`generate_expr_round_trip`.
-/

namespace Lambda94

/-! ### Bound variables on the wire -/

theorem readsBack_of_mem {binders : List Int} {id : Int} (mem : id ∈ binders)
    (apart : ∀ binder ∈ binders, binder.natAbs = id.natAbs → binder = id) :
    readsBack binders id = true := by
  induction binders with
  | nil => exact absurd mem List.not_mem_nil
  | cons binder binders ih =>
    rw [readsBack_cons_iff]
    split_ifs with habs
    · exact apart binder List.mem_cons_self habs
    · have mem' : id ∈ binders := by
        rcases List.mem_cons.1 mem with rfl | mem
        · exact absurd rfl habs
        · exact mem
      exact ih mem' fun binder' hbinder' => apart binder' (List.mem_cons_of_mem _ hbinder')

namespace Expr

/-- Every function has an id in `S`, and every variable has the id of a function around it or one of
`outer`. -/
def BoundIn (S : Set Int) (outer : List Int) : Expr → Prop
  | .lit _ => True
  | .unary _ operand => operand.BoundIn S outer
  | .binary _ left right => left.BoundIn S outer ∧ right.BoundIn S outer
  | .cond c t e => c.BoundIn S outer ∧ t.BoundIn S outer ∧ e.BoundIn S outer
  | .lam binder body => binder ∈ S ∧ body.BoundIn S (binder :: outer)
  | .var id => id ∈ outer

/-- Every literal of an expression has the property. -/
def Literals (P : Value → Prop) : Expr → Prop := Each P (fun _ => True) fun _ => True

section

variable {S : Set Int} {outer : List Int} {expr : Expr}

/-- If no two ids are written alike, every bound variable reads back. -/
theorem BoundIn.readsBack (h : expr.BoundIn S outer) (houter : ∀ id ∈ outer, id ∈ S)
    (apart : S.InjOn Int.natAbs) : expr.ReadsBack outer := by
  induction expr generalizing outer with
  | lit value => trivial
  | unary op operand ih => exact ih h houter
  | binary op left right ihl ihr => exact ⟨ihl h.1 houter, ihr h.2 houter⟩
  | cond c t e ihc iht ihe => exact ⟨ihc h.1 houter, iht h.2.1 houter, ihe h.2.2 houter⟩
  | lam binder body ih => exact ih h.2 (List.forall_mem_cons.2 ⟨h.1, houter⟩)
  | var id =>
    exact readsBack_of_mem h fun binder mem => apart (houter binder mem) (houter id h)

/-- An expression decodes to itself if its literals and its ids do. -/
theorem BoundIn.decoded_eq_self (h : expr.BoundIn S outer) (houter : ∀ id ∈ outer, id ∈ S)
    (kept : ∀ id ∈ S, Wire.decodedId id = id)
    (literals : expr.Literals fun value => value.decoded = .lit value) : expr.decoded = expr := by
  induction expr generalizing outer with
  | lit value => exact literals
  | unary op operand ih => rw [decoded, ih h houter literals]
  | binary op left right ihl ihr =>
    rw [decoded, ihl h.1 houter literals.1, ihr h.2 houter literals.2]
  | cond c t e ihc iht ihe =>
    rw [decoded, ihc h.1 houter literals.1, iht h.2.1 houter literals.2.1,
      ihe h.2.2 houter literals.2.2]
  | lam binder body ih =>
    rw [decoded, kept binder h.1, ih h.2 (List.forall_mem_cons.2 ⟨h.1, houter⟩) literals.2]
  | var id => rw [decoded, kept id (houter id h)]

/-- If no two ids are read alike, an expression with binders that count down comes back as it is. -/
theorem BoundIn.renumber_decoded_eq_self (h : expr.BoundIn S outer) (houter : ∀ id ∈ outer, id ∈ S)
    (apart : S.InjOn Wire.decodedId)
    (literals : expr.Literals fun value => value.decoded = .lit value) {rename : Int → Int}
    (resolves : ∀ id ∈ outer, rename (Wire.decodedId id) = id) {next : Int}
    (counts : expr.binders = countdown next expr.binders.length) :
    expr.decoded.renumber rename next = expr := by
  induction expr generalizing outer rename next with
  | lit value =>
    have hvalue : value.decoded = .lit value := literals
    rw [decoded, hvalue, renumber]
  | unary op operand ih => rw [decoded, renumber, ih h houter literals resolves counts]
  | binary op left right ihl ihr =>
    rw [binders, List.length_append, countdown_add] at counts
    obtain ⟨hleft, hright⟩ := List.append_inj counts (by simp)
    rw [decoded, renumber, length_binders_decoded, ihl h.1 houter literals.1 resolves hleft,
      ihr h.2 houter literals.2 resolves hright]
  | cond c t e ihc iht ihe =>
    rw [binders, List.length_append, countdown_add] at counts
    obtain ⟨counts, helse⟩ := List.append_inj counts (by simp)
    rw [List.length_append, countdown_add] at counts
    obtain ⟨hcond, hthen⟩ := List.append_inj counts (by simp)
    rw [List.length_append, Nat.cast_add, ← Int.sub_sub] at helse
    rw [decoded, renumber, length_binders_decoded, length_binders_decoded,
      ihc h.1 houter literals.1 resolves hcond, iht h.2.1 houter literals.2.1 resolves hthen,
      ihe h.2.2 houter literals.2.2 resolves helse]
  | lam binder body ih =>
    rw [binders, List.length_cons, countdown_succ] at counts
    obtain ⟨rfl, hbody⟩ := List.cons.inj counts
    have resolves' : ∀ id ∈ binder :: outer,
        Function.update rename (Wire.decodedId binder) binder (Wire.decodedId id) = id := by
      intro id mem
      by_cases heq : Wire.decodedId id = Wire.decodedId binder
      · have hid : id ∈ S := List.forall_mem_cons.2 ⟨h.1, houter⟩ id mem
        rw [heq, Function.update_self, apart hid h.1 heq]
      · rw [Function.update_of_ne heq]
        rcases List.mem_cons.1 mem with rfl | mem
        · exact absurd rfl heq
        · exact resolves id mem
    rw [decoded, renumber,
      ih h.2 (List.forall_mem_cons.2 ⟨h.1, houter⟩) literals.2 resolves' hbody]
  | var id => rw [decoded, renumber, resolves id h]

/-- Renumbered, the functions have ids from `low` up to `next`. -/
theorem BoundIn.renumber (h : expr.BoundIn S outer) {outer' : List Int} {rename : Int → Int}
    (resolves : ∀ id ∈ outer, rename id ∈ outer') {low next : Int} (negative : next < 0)
    (room : low + expr.binders.length ≤ next + 1) :
    (expr.renumber rename next).BoundIn (Set.Ico low 0) outer' := by
  induction expr generalizing outer outer' rename next with
  | lit value => trivial
  | unary op operand ih => exact ih h resolves negative room
  | binary op left right ihl ihr =>
    rw [binders, List.length_append, Nat.cast_add] at room
    exact ⟨ihl h.1 resolves negative (by omega), ihr h.2 resolves (by omega) (by omega)⟩
  | cond c t e ihc iht ihe =>
    rw [binders, List.length_append, List.length_append, Nat.cast_add, Nat.cast_add] at room
    exact ⟨ihc h.1 resolves negative (by omega), iht h.2.1 resolves (by omega) (by omega),
      ihe h.2.2 resolves (by omega) (by omega)⟩
  | lam binder body ih =>
    rw [binders, List.length_cons, Nat.cast_add, Nat.cast_one] at room
    refine ⟨⟨by omega, negative⟩, ih h.2 ?_ (by omega) (by omega)⟩
    intro id mem
    by_cases heq : id = binder
    · rw [heq, Function.update_self]
      exact List.mem_cons_self
    · rw [Function.update_of_ne heq]
      exact List.mem_cons_of_mem _ (resolves id ((List.mem_cons.1 mem).resolve_left heq))
  | var id => exact resolves id h

end

theorem Literals.mono {P Q : Value → Prop} (imp : ∀ value, P value → Q value) {expr : Expr}
    (h : expr.Literals P) : expr.Literals Q := by
  induction expr with
  | lit value => exact imp value h
  | unary op operand ih => exact ih h
  | binary op left right ihl ihr => exact ⟨ihl h.1, ihr h.2⟩
  | cond c t e ihc iht ihe => exact ⟨ihc h.1, iht h.2.1, ihe h.2.2⟩
  | lam id body ih => exact ⟨trivial, ih h.2⟩
  | var id => trivial

theorem Literals.renumber {P : Value → Prop} {expr : Expr} (h : expr.Literals P)
    (rename : Int → Int) (next : Int) : (expr.renumber rename next).Literals P := by
  induction expr generalizing rename next with
  | lit value => exact h
  | unary op operand ih => exact ih h _ _
  | binary op left right ihl ihr => exact ⟨ihl h.1 _ _, ihr h.2 _ _⟩
  | cond c t e ihc iht ihe => exact ⟨ihc h.1 _ _, iht h.2.1 _ _, ihe h.2.2 _ _⟩
  | lam id body ih => exact ⟨trivial, ih h.2 _ _⟩
  | var id => trivial

end Expr

/-- As many ids as there are numerals are read apart. -/
theorem Wire.injOn_decodedId : (Set.Ico (-2 ^ 64) 0).InjOn Wire.decodedId := by
  rintro a ⟨lower, upper⟩ b ⟨lower', upper'⟩ heq
  simp only [Wire.decodedId, wrap, Int.bmod_def] at heq
  split_ifs at heq <;> omega

/-! ### Generation -/

/-- The answers are within the bounds that the source is asked for. -/
def Source.InRange (source : Source) : Prop :=
  ∀ i low high, low ≤ high → low ≤ source i low high ∧ source i low high ≤ high

theorem Source.inRange_cyclic (draws : List Int) : (cyclic draws).InRange := by
  intro i low high le
  have hpos : 0 < high - low + 1 := by omega
  have hlower := Int.emod_nonneg (raw draws i low high) (Int.ne_of_gt hpos)
  have hupper := Int.emod_lt_of_pos (raw draws i low high) hpos
  rw [cyclic]
  omega

/-- The value can be written, and its integer is at most a million. -/
def Value.Drawn : Value → Prop
  | .str s => ∀ u ∈ s, u ∈ Wire.alphabet
  | .bool _ => True
  | .int n => 0 ≤ n ∧ n ≤ 1000000

/-- The expressions of at most the given depth, with variables of the scope, that can be
generated. -/
inductive Expr.Generated : Nat → List Int → Expr → Prop
  | lit {depth : Nat} {scope : List Int} {value : Value} (drawn : value.Drawn) :
    Generated depth scope (.lit value)
  | var {depth : Nat} {scope : List Int} {id : Int} (mem : id ∈ scope) :
    Generated depth scope (.var id)
  | unary {depth : Nat} {scope : List Int} (op : UnaryOp) {operand : Expr}
    (h : Generated depth scope operand) : Generated (depth + 1) scope (.unary op operand)
  | binary {depth : Nat} {scope : List Int} (op : BinaryOp) {left right : Expr}
    (hleft : Generated depth scope left) (hright : Generated depth scope right) :
    Generated (depth + 1) scope (.binary op left right)
  | cond {depth : Nat} {scope : List Int} {c t e : Expr} (hc : Generated depth scope c)
    (ht : Generated depth scope t) (he : Generated depth scope e) :
    Generated (depth + 1) scope (.cond c t e)
  | lam {depth : Nat} {scope : List Int} {binder : Int} {body : Expr} (lower : 0 ≤ binder)
    (upper : binder ≤ 3) (h : Generated depth (scope ++ [binder]) body) :
    Generated (depth + 1) scope (.lam binder body)

namespace GenM

variable {source : Source} {α β : Type} {P : α → Prop} {Q : β → Prop}

/-- Whatever the source was asked before, generation succeeds, with a result that has the
property. -/
def Produces (source : Source) (gen : GenM α) (P : α → Prop) : Prop :=
  ∀ asked, ∃ a asked', (gen source).run asked = .ok a asked' ∧ P a

theorem Produces.pure {a : α} (h : P a) : Produces source (Pure.pure a) P :=
  fun asked => ⟨a, asked, rfl, h⟩

theorem Produces.bind {gen : GenM α} {next : α → GenM β} (h : Produces source gen P)
    (hnext : ∀ a, P a → Produces source (next a) Q) : Produces source (gen >>= next) Q := by
  intro asked
  obtain ⟨a, asked₁, hrun, ha⟩ := h asked
  obtain ⟨b, asked₂, hrun', hb⟩ := hnext a ha asked₁
  refine ⟨b, asked₂, ?_, hb⟩
  show (gen source >>= fun a => next a source).run asked = .ok b asked₂
  rw [run_bind_of_ok hrun, hrun']

section

variable (inRange : source.InRange)
include inRange

theorem produces_between {low high : Int} (le : low ≤ high) :
    Produces source (between low high) fun n => low ≤ n ∧ n ≤ high :=
  fun asked => ⟨_, asked + 1, rfl, inRange asked low high le⟩

theorem produces_pick {items : List α} (nonempty : items ≠ []) :
    Produces source (pick items) (· ∈ items) := by
  have hlength := List.length_pos_iff.2 nonempty
  refine (produces_between inRange (by omega)).bind fun index hindex => ?_
  obtain ⟨item, hitem⟩ : ∃ item, items[index.toNat]? = some item :=
    ⟨_, List.getElem?_eq_getElem (by omega)⟩
  have hnth : nth? items index = some item := by rw [nth?, if_neg (by omega), hitem]
  rw [hnth]
  exact .pure (List.mem_of_getElem? hitem)

theorem produces_characters (count : Nat) :
    Produces source (characters count) fun s => ∀ u ∈ s, u ∈ Wire.alphabet := by
  induction count with
  | zero => exact .pure (by simp)
  | succ count ih =>
    have hle : (0 : Int) ≤ Wire.alphabet.length - 1 := by rw [Wire.length_alphabet]; decide
    refine (produces_between inRange hle).bind fun index hindex => ih.bind fun rest hrest => ?_
    refine .pure fun u mem => ?_
    rcases List.mem_append.1 mem with mem | mem
    · rw [nth?] at mem
      split_ifs at mem
      · cases mem
      · exact List.mem_of_getElem? (Option.mem_toList.1 mem)
    · exact hrest u mem

theorem produces_string {maxLength : Int} (h : 0 ≤ maxLength) :
    Produces source (string maxLength) fun s => ∀ u ∈ s, u ∈ Wire.alphabet :=
  (produces_between inRange h).bind fun length _ => produces_characters inRange length.toNat

theorem produces_value : Produces source value Value.Drawn := by
  refine (produces_between inRange (by decide)).bind fun die _ => ?_
  split_ifs
  · exact (produces_between inRange (by decide)).bind fun n _ => .pure trivial
  · refine (produces_between inRange (by decide)).bind fun n hn => .pure ?_
    rw [Value.ofInt, wrap_eq_self (by omega) (by omega)]
    exact hn
  · exact (produces_string inRange (by decide)).bind fun s hs => .pure hs

theorem produces_leaf (depth : Nat) (scope : List Int) :
    Produces source (leaf scope) (Expr.Generated depth scope) := by
  have literal : Produces source (do return .lit (← value)) (Expr.Generated depth scope) :=
    (produces_value inRange).bind fun value drawn => .pure (.lit drawn)
  rw [leaf]
  by_cases hscope : scope = []
  · rw [if_pos (List.isEmpty_iff.2 hscope)]
    exact literal
  rw [if_neg (by rwa [List.isEmpty_iff])]
  refine (produces_between inRange (by decide)).bind fun coin _ => ?_
  split_ifs
  · exact (produces_pick inRange hscope).bind fun id mem => .pure (.var mem)
  · exact literal

/-- By induction on the depth: whatever the die shows, the parts are generated at the depth
below. -/
theorem produces_expr (depth : Nat) (scope : List Int) :
    Produces source (expr depth scope) (Expr.Generated depth scope) := by
  induction depth generalizing scope with
  | zero => exact produces_leaf inRange 0 scope
  | succ depth ih =>
    rw [expr]
    refine (produces_between inRange (by decide)).bind fun die _ => ?_
    split_ifs
    · refine (produces_pick inRange (by decide)).bind fun op _ => ?_
      exact (ih scope).bind fun operand h => .pure (.unary op h)
    · refine (produces_pick inRange (by decide)).bind fun op _ => ?_
      refine (ih scope).bind fun left hleft => ?_
      exact (ih scope).bind fun right hright => .pure (.binary op hleft hright)
    · refine (ih scope).bind fun c hc => (ih scope).bind fun t ht => ?_
      exact (ih scope).bind fun e he => .pure (.cond hc ht he)
    · refine (produces_between inRange (by decide)).bind fun binder hbinder => ?_
      exact (ih (scope ++ [binder])).bind fun body h => .pure (.lam hbinder.1 hbinder.2 h)
    · exact produces_leaf inRange (depth + 1) scope

end

end GenM

namespace Expr.Generated

variable {depth : Nat} {scope : List Int} {expr : Expr}

theorem height_le (h : expr.Generated depth scope) : expr.height ≤ depth := by
  induction h with
  | lit | var => exact Nat.zero_le _
  | unary _ _ ih | lam _ _ _ ih => exact Nat.succ_le_succ ih
  | binary _ _ _ ihl ihr => exact Nat.succ_le_succ (Nat.max_le.2 ⟨ihl, ihr⟩)
  | cond _ _ _ ihc iht ihe =>
    exact Nat.succ_le_succ (Nat.max_le.2 ⟨ihc, Nat.max_le.2 ⟨iht, ihe⟩⟩)

theorem literals (h : expr.Generated depth scope) : expr.Literals Value.Drawn := by
  induction h with
  | lit drawn => exact drawn
  | var => trivial
  | unary _ _ ih => exact ih
  | lam _ _ _ ih => exact ⟨trivial, ih⟩
  | binary _ _ _ ihl ihr => exact ⟨ihl, ihr⟩
  | cond _ _ _ ihc iht ihe => exact ⟨ihc, iht, ihe⟩

theorem boundIn (h : expr.Generated depth scope) {outer : List Int}
    (houter : ∀ id ∈ scope, id ∈ outer) : expr.BoundIn (Set.Icc 0 3) outer := by
  induction h generalizing outer with
  | lit => trivial
  | var mem => exact houter _ mem
  | unary _ _ ih => exact ih houter
  | binary _ _ _ ihl ihr => exact ⟨ihl houter, ihr houter⟩
  | cond _ _ _ ihc iht ihe => exact ⟨ihc houter, iht houter, ihe houter⟩
  | lam lower upper _ ih =>
    refine ⟨⟨lower, upper⟩, ih fun id mem => ?_⟩
    rcases List.mem_append.1 mem with mem | mem
    · exact List.mem_cons_of_mem _ (houter id mem)
    · exact List.mem_singleton.1 mem ▸ List.mem_cons_self

end Expr.Generated

/-- What a drawn value is written as is read as that value. -/
theorem Value.Drawn.decoded_eq {value : Value} (h : value.Drawn) : value.decoded = .lit value := by
  rcases value with s | b | n
  · rfl
  · rfl
  · obtain ⟨lower, upper⟩ := h
    have hid : Wire.decodedId n = n := by
      rw [Wire.decodedId, wrap_eq_self (by omega) (by omega)]
      omega
    rw [decoded, if_neg (by omega), hid]

theorem Value.Drawn.encodable {value : Value} (h : value.Drawn) : value.Encodable := by
  rcases value with s | b | n
  · exact h
  · trivial
  · trivial

/-! ### Main result -/

namespace Expr

variable {program : Expr}

/-- A program with drawn literals and ids is written, and read with binders of its own. -/
theorem ofText_of_boundIn_drawn (bound : program.BoundIn (Set.Icc 0 3) [])
    (literals : program.Literals Value.Drawn) :
    program.toWire = .ok program.text ∧
      Program.ofText program.text = .ok ⟨program.renumber id (-1), program.binders.length⟩ ∧
      ∀ path, (program.renumber id (-1)).referent? path = program.referent? path := by
  have apart : (Set.Icc (0 : Int) 3).InjOn Int.natAbs := by
    rintro a ⟨ha, -⟩ b ⟨hb, -⟩ heq
    omega
  have kept : ∀ id ∈ Set.Icc (0 : Int) 3, Wire.decodedId id = id := by
    rintro id ⟨lower, upper⟩
    rw [Wire.decodedId, wrap_eq_self (by omega) (by omega)]
    omega
  have encodable : program.Encodable := literals.mono fun _ => Value.Drawn.encodable
  have reads : program.ReadsBack [] := bound.readsBack (List.forall_mem_nil _) apart
  have decoded : program.decoded = program :=
    bound.decoded_eq_self (List.forall_mem_nil _) kept
      (literals.mono fun _ => Value.Drawn.decoded_eq)
  have read := Program.ofText_text_decoded encodable
  rw [decoded] at read
  have noNegative : (program.renumber id (-1)).NoNegative := by
    refine (literals.renumber id (-1)).mono ?_
    rintro _ drawn n rfl
    exact drawn.1
  refine ⟨toWire_eq_ok_iff.2 ⟨encodable, reads, rfl⟩, read, fun path => ?_⟩
  rw [← referent?_canonical reads path, canonical, spellNegatives_eq_self_iff.2 noNegative]

/-- With binders of its own, the program is written once more, and read as it is. -/
theorem ofText_renumber_of_boundIn {S : Set Int} (bound : program.BoundIn S [])
    (literals : program.Literals Value.Drawn) :
    (program.renumber id (-1)).toWire = .ok (program.renumber id (-1)).text ∧
      (program.binders.length ≤ 2 ^ 64 →
        ofText (program.renumber id (-1)).text = .ok (program.renumber id (-1))) := by
  have literals' : (program.renumber id (-1)).Literals Value.Drawn := literals.renumber id (-1)
  have encodable : (program.renumber id (-1)).Encodable :=
    literals'.mono fun _ => Value.Drawn.encodable
  have boundFrom {low : Int} (room : low + program.binders.length ≤ 0) :
      (program.renumber id (-1)).BoundIn (Set.Ico low 0) [] :=
    bound.renumber (List.forall_mem_nil _) (by decide) (by omega)
  constructor
  · have apart : (Set.Ico (-program.binders.length : Int) 0).InjOn Int.natAbs := by
      rintro a ⟨-, ha⟩ b ⟨-, hb⟩ heq
      omega
    have reads := (boundFrom (by omega)).readsBack (List.forall_mem_nil _) apart
    exact toWire_eq_ok_iff.2 ⟨encodable, reads, rfl⟩
  · intro room
    have counts : (program.renumber id (-1)).binders =
        countdown (-1) (program.renumber id (-1)).binders.length := by
      rw [binders_renumber, length_countdown]
    have boundIn : (program.renumber id (-1)).BoundIn (Set.Ico (-2 ^ 64) 0) [] :=
      boundFrom (by omega)
    have same : (program.renumber id (-1)).decoded.renumber id (-1) = program.renumber id (-1) :=
      boundIn.renumber_decoded_eq_self (List.forall_mem_nil _) Wire.injOn_decodedId
        (literals'.mono fun _ => Value.Drawn.decoded_eq) (List.forall_mem_nil _) counts
    exact ofText_eq_ok_iff.2 ⟨_, Program.ofText_text_decoded encodable, same⟩

end Expr

/-- From any source that keeps to the bounds it is asked for, and to any depth, a program is
generated that is no deeper, in which every variable is bound, every string is one of the string
alphabet and every integer is from zero to a million.  The program can be written; it is read with
one binder for each of its functions, counting down from `-1`, and every variable refers to the
function that it referred to.  What is read can be written again, and comes back as it is; numerals
wrap to 64 bits, so this is said of programs with no more functions than there are numerals, and a
larger one does not fit in any memory. -/
theorem generate_expr_round_trip {source : Source} (inRange : source.InRange) (depth : Int) :
    ∃ program asked, GenM.generate (GenM.expr depth.toNat []) source = .ok (program, asked) ∧
      (program.height : Int) ≤ max depth 0 ∧ program.BoundIn (Set.Icc 0 3) [] ∧
      program.Literals Value.Drawn ∧
      ∃ written renamed rewritten, program.toWire = .ok written ∧
        Program.ofText written = .ok ⟨renamed, program.binders.length⟩ ∧
        renamed = program.renumber id (-1) ∧
        (∀ path, renamed.referent? path = program.referent? path) ∧
        renamed.toWire = .ok rewritten ∧
        (program.binders.length ≤ 2 ^ 64 → Expr.ofText rewritten = .ok renamed) := by
  obtain ⟨program, asked, hrun, generated⟩ := GenM.produces_expr inRange depth.toNat [] 0
  have hgenerate : GenM.generate (GenM.expr depth.toNat []) source = .ok (program, asked) := by
    rw [GenM.generate, hrun]
  have hheight : (program.height : Int) ≤ max depth 0 := by
    have := generated.height_le
    omega
  have bound : program.BoundIn (Set.Icc 0 3) [] := generated.boundIn fun _ => id
  obtain ⟨write, read, referents⟩ := Expr.ofText_of_boundIn_drawn bound generated.literals
  obtain ⟨write', read'⟩ := Expr.ofText_renumber_of_boundIn bound generated.literals
  exact ⟨program, asked, hgenerate, hheight, bound, generated.literals, _, _, _, write, read, rfl,
    referents, write', read'⟩

/-- Two functions of one binder, one inside the other, and a variable of the inner one. -/
theorem generate_expr_round_trip_shadowed :
    ∃ source program written rewritten,
      source = Source.cyclic [3, 1, 3, 1, 4, 1, 1] ∧ source.InRange ∧
      GenM.generate (GenM.expr 3 []) source = .ok (program, 7) ∧
      program = .lam 1 (.lam 1 (.var 1)) ∧ program.height ≤ 3 ∧
      program.toWire = .ok written ∧ written = "L\" L\" v\"" ∧
      Program.ofText written = .ok ⟨.lam (-1) (.lam (-2) (.var (-2))), 2⟩ ∧
      (Expr.lam (-1) (.lam (-2) (.var (-2)))).toWire = .ok rewritten ∧
      rewritten = "L\" L# v#" ∧
      Expr.ofText rewritten = .ok (.lam (-1) (.lam (-2) (.var (-2)))) := by
  let source := Source.cyclic [3, 1, 3, 1, 4, 1, 1]
  have inRange : source.InRange := Source.inRange_cyclic _
  have drawn : GenM.generate (GenM.expr 3 []) source = .ok (.lam 1 (.lam 1 (.var 1)), 7) := by
    rfl
  have write : (Expr.lam 1 (.lam 1 (.var 1))).toWire = .ok "L\" L\" v\"" := by cbv
  have rewrite : (Expr.lam (-1) (.lam (-2) (.var (-2)))).toWire = .ok "L\" L# v#" := by cbv
  obtain ⟨program, asked, hgenerate, hheight, -, -, written, renamed, rewritten, hwrite, hread,
    hrenamed, -, hrewrite, hback⟩ := generate_expr_round_trip inRange 3
  cases hgenerate.symm.trans drawn
  cases hwrite.symm.trans write
  cases hrenamed
  cases hrewrite.symm.trans rewrite
  exact ⟨source, _, _, _, rfl, inRange, drawn, rfl, by omega, write, rfl, hread, rewrite, rfl,
    hback (by decide)⟩

end Lambda94
