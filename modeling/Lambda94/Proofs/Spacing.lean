import Lambda94.Program

/-!
# White space between tokens

A text is the literals of its tokens with white space between, before and after them, and no other
runs make it up; so what a text is read as does not depend on its white space: `scan_of_spacing`.

The first half is about any literals and any white space.  For the second half a text is taken
apart from the right, unit by unit (`exists_spacing`); that the words found so are those of the text
is then the first half again.
-/

namespace Lambda94

/-! ### White space -/

namespace Text

/-- White space, perhaps none. -/
def AllBlank (text : Text) : Prop := ∀ u ∈ text, isBlank u = true

instance (text : Text) : Decidable (AllBlank text) :=
  decidable_of_iff (text.all isBlank = true) List.all_eq_true

/-- A run of units that are no white space; there is at least one. -/
structure IsRun (text : Text) : Prop where
  nonempty : text ≠ []
  visible : ∀ u ∈ text, isBlank u = false

instance (text : Text) : Decidable (IsRun text) :=
  decidable_of_iff (text ≠ [] ∧ text.any isBlank = false)
    ⟨fun h => ⟨h.1, fun u hu => eq_false_of_ne_true (List.any_eq_false.1 h.2 u hu)⟩,
      fun h => ⟨h.nonempty, List.any_eq_false.2 fun u hu => ne_true_of_eq_false (h.visible u hu)⟩⟩

theorem AllBlank.cons {u : UInt16} {text : Text} (hu : isBlank u = true) (h : AllBlank text) :
    AllBlank (u :: text) := List.forall_mem_cons.2 ⟨hu, h⟩

theorem AllBlank.append {text text' : Text} (h : AllBlank text) (h' : AllBlank text') :
    AllBlank (text ++ text') := List.forall_mem_append.2 ⟨h, h'⟩

theorem isRun_singleton {u : UInt16} (hu : isBlank u = false) : IsRun [u] :=
  ⟨List.cons_ne_nil _ _, List.forall_mem_singleton.2 hu⟩

theorem IsRun.cons {u : UInt16} {text : Text} (hu : isBlank u = false) (h : IsRun text) :
    IsRun (u :: text) :=
  ⟨List.cons_ne_nil _ _, List.forall_mem_cons.2 ⟨hu, h.visible⟩⟩

theorem words_blank_append {blanks : Text} (h : AllBlank blanks) (text : Text) :
    words (blanks ++ text) = words text := by
  induction blanks with
  | nil => rfl
  | cons u blanks ih =>
    obtain ⟨hu, hrest⟩ := List.forall_mem_cons.1 h
    exact (words_append_blank hu [] (blanks ++ text)).trans (ih hrest)

/-- A run is a word if white space follows, or nothing. -/
theorem words_run_append {run rest : Text} (h : IsRun run)
    (hrest : ∀ u ∈ rest.head?, isBlank u = true) : words (run ++ rest) = run :: words rest := by
  cases rest with
  | nil => rw [List.append_nil, words_eq_singleton h.nonempty h.visible, words_nil]
  | cons u rest =>
    have hu : isBlank u = true := hrest u rfl
    have skip : words (u :: rest) = words rest := words_append_blank hu [] rest
    rw [words_append_blank hu, words_eq_singleton h.nonempty h.visible, skip]
    rfl

/-- Runs, each with its gap in front of it. -/
def spaced (gaps runs : List Text) : Text := (List.zipWith (· ++ ·) gaps runs).flatten

@[simp] theorem spaced_nil (gaps : List Text) : spaced gaps [] = [] := by
  rw [spaced, List.zipWith_nil_right, List.flatten_nil]

@[simp] theorem spaced_cons (gap run : Text) (gaps runs : List Text) :
    spaced (gap :: gaps) (run :: runs) = gap ++ (run ++ spaced gaps runs) := by
  rw [spaced, List.zipWith_cons_cons, List.flatten_cons, List.append_assoc, spaced]

/-- The runs are the words. -/
theorem words_spaced_append {gaps runs : List Text} {after : Text}
    (length : gaps.length = runs.length) (hgaps : ∀ gap ∈ gaps, AllBlank gap)
    (between : ∀ gap ∈ gaps.tail, gap ≠ []) (hruns : ∀ run ∈ runs, IsRun run)
    (hafter : AllBlank after) : words (spaced gaps runs ++ after) = runs := by
  induction runs generalizing gaps with
  | nil => simpa using words_blank_append hafter []
  | cons run runs ih =>
    obtain _ | ⟨gap, gaps⟩ := gaps
    · cases length
    obtain ⟨hgap, hothers⟩ := List.forall_mem_cons.1 hgaps
    obtain ⟨hrun, hruns⟩ := List.forall_mem_cons.1 hruns
    -- After a run comes the next gap, which is not empty, or the white space at the end.
    have hrest : ∀ u ∈ (spaced gaps runs ++ after).head?, isBlank u = true := by
      obtain _ | ⟨next, runs⟩ := runs
      · rw [spaced_nil, List.nil_append]
        exact fun u hu => hafter u (List.mem_of_mem_head? hu)
      obtain _ | ⟨gap', gaps⟩ := gaps
      · cases length
      obtain ⟨u, blanks, rfl⟩ := List.exists_cons_of_ne_nil (between gap' List.mem_cons_self)
      rintro _ ⟨⟩
      exact hothers _ List.mem_cons_self u List.mem_cons_self
    rw [spaced_cons, List.append_assoc, List.append_assoc, words_blank_append hgap,
      words_run_append hrun hrest,
      ih (Nat.succ.inj length) hothers (fun g hg => between g (List.mem_of_mem_tail hg)) hruns]

end Text

open Text

/-- White space for a number of literals. -/
structure Spacing (count : Nat) where
  before : Text
  /-- What separates the literals. -/
  between : List Text
  after : Text
  length_between : between.length = count - 1
  blank_before : AllBlank before
  blank_between : ∀ gap ∈ between, gap ≠ [] ∧ AllBlank gap
  blank_after : AllBlank after

namespace Spacing

variable {count : Nat}

/-- The text of literals with this white space. -/
def text (spacing : Spacing count) (literals : List Text) : Text :=
  spacing.before ++ (spaced ([] :: spacing.between) literals ++ spacing.after)

theorem words_text {literals : List Text} (h : ∀ literal ∈ literals, IsRun literal)
    (spacing : Spacing literals.length) : words (spacing.text literals) = literals := by
  rw [text, words_blank_append spacing.blank_before]
  cases literals with
  | nil => simpa using words_blank_append spacing.blank_after []
  | cons literal literals =>
    refine words_spaced_append ?_ ?_ (fun gap hgap => (spacing.blank_between gap hgap).1) h
      spacing.blank_after
    · rw [List.length_cons, spacing.length_between]
      rfl
    · exact List.forall_mem_cons.2 ⟨nofun, fun gap hgap => (spacing.blank_between gap hgap).2⟩

/-- Every text is made up of runs and white space. -/
theorem exists_spacing (text : Text) : ∃ literals : List Text,
    (∀ literal ∈ literals, IsRun literal) ∧
      ∃ spacing : Spacing literals.length, spacing.text literals = text := by
  induction text with
  | nil => exact ⟨[], nofun, ⟨[], [], [], rfl, nofun, nofun, nofun⟩, rfl⟩
  | cons u text ih =>
    obtain ⟨literals, hruns, spacing, rfl⟩ := ih
    by_cases hu : isBlank u = true
    · have blank := AllBlank.cons hu spacing.blank_before
      exact ⟨literals, hruns,
        { spacing with before := u :: spacing.before, blank_before := blank }, rfl⟩
    replace hu : isBlank u = false := eq_false_of_ne_true hu
    cases literals with
    | nil =>
      -- The text was white space only, which now comes after the unit.
      refine ⟨[[u]], List.forall_mem_singleton.2 (isRun_singleton hu),
        ⟨[], [], spacing.before ++ spacing.after, rfl, nofun, nofun,
          spacing.blank_before.append spacing.blank_after⟩, ?_⟩
      simp [Spacing.text]
    | cons literal literals =>
      obtain ⟨hrun, hothers⟩ := List.forall_mem_cons.1 hruns
      cases hbefore : spacing.before with
      | nil =>
        -- The unit belongs to the first run.
        refine ⟨(u :: literal) :: literals, List.forall_mem_cons.2 ⟨.cons hu hrun, hothers⟩,
          spacing, ?_⟩
        simp [Spacing.text, hbefore]
      | cons b blanks =>
        -- The white space in front is between two runs now.
        have gap : spacing.before ≠ [] ∧ AllBlank spacing.before :=
          ⟨by simp [hbefore], spacing.blank_before⟩
        refine ⟨[u] :: literal :: literals,
          List.forall_mem_cons.2 ⟨isRun_singleton hu, hruns⟩,
          ⟨[], spacing.before :: spacing.between, spacing.after, ?_, nofun,
            List.forall_mem_cons.2 ⟨gap, spacing.blank_between⟩, spacing.blank_after⟩, ?_⟩
        · rw [List.length_cons, spacing.length_between]
          rfl
        · simp [Spacing.text]

end Spacing

/-! ### Main result -/

theorem scan_text {literals : List Text} (h : ∀ literal ∈ literals, IsRun literal)
    (spacing : Spacing literals.length) :
    Token.scan (spacing.text literals) =
      literals.zipIdx.map fun (literal, offset) =>
        ⟨literal.take 1, literal.drop 1, literal, offset⟩ := by
  rw [Token.scan, spacing.words_text h]
  rfl

/-- The tokens of literals with white space between, before and after them are these literals, in
order and counted from zero, each cut after its first 16-bit unit; and every text is made up in this
way of the literals of its tokens.  So texts that differ in their white space only are read
alike. -/
theorem scan_of_spacing :
    (∀ literals : List Text, (∀ literal ∈ literals, IsRun literal) →
      ∀ spacing : Spacing literals.length, Token.scan (spacing.text literals) =
        literals.zipIdx.map fun (literal, offset) =>
          ⟨literal.take 1, literal.drop 1, literal, offset⟩) ∧
    (∀ text, let literals := (Token.scan text).map Token.literal
      (∀ literal ∈ literals, IsRun literal) ∧
        ∃ spacing : Spacing literals.length, spacing.text literals = text) ∧
    (∀ literals : List Text, (∀ literal ∈ literals, IsRun literal) →
      ∀ spacing spacing' : Spacing literals.length,
        Program.ofText (spacing.text literals) = Program.ofText (spacing'.text literals) ∧
          Expr.ofText (spacing.text literals) = Expr.ofText (spacing'.text literals)) := by
  refine ⟨fun literals h spacing => scan_text h spacing, fun text => ?_,
    fun literals h spacing spacing' => ?_⟩
  · obtain ⟨literals, hruns, spacing, rfl⟩ := Spacing.exists_spacing text
    have hliterals : (Token.scan (spacing.text literals)).map Token.literal = literals := by
      rw [scan_text hruns, List.map_map]
      exact List.zipIdx_map_fst 0 literals
    rw [hliterals]
    exact ⟨hruns, spacing, rfl⟩
  · have hread : Program.ofText (spacing.text literals) =
        Program.ofText (spacing'.text literals) := by
      rw [Program.ofText, ParseTree.ofText, scan_text h spacing, ← scan_text h spacing',
        ← ParseTree.ofText, ← Program.ofText]
    exact ⟨hread, by rw [Expr.ofText, hread, Expr.ofText]⟩

/-- A sum between white space of several kinds, and the same with single spaces; and two literals
that begin with a surrogate pair, which are cut between its halves and stay different. -/
theorem scan_of_spacing_sum :
    let literals : List Text := ["B+", "I\"", "I😀"]
    (∀ literal ∈ literals, IsRun literal) ∧
      Token.scan "\u00a0B+\r\n\tI\"\u3000I😀 " =
        [⟨"B", "+", "B+", 0⟩, ⟨"I", "\"", "I\"", 1⟩, ⟨"I", "😀", "I😀", 2⟩] ∧
      Program.ofText "\u00a0B+\r\n\tI\"\u3000I😀 " = Program.ofText "B+ I\" I😀" ∧
      Token.scan "😀a 😎a" =
        [⟨[0xD83D], [0xDE00, 0x61], "😀a", 0⟩, ⟨[0xD83D], [0xDE0E, 0x61], "😎a", 1⟩] := by
  intro literals
  have hruns : ∀ literal ∈ literals, IsRun literal := by decide
  let mixed : Spacing literals.length :=
    ⟨"\u00a0", ["\r\n\t", "\u3000"], " ", rfl, by decide, by decide, by decide⟩
  let single : Spacing literals.length :=
    ⟨[], [" ", " "], [], rfl, by decide, by decide, by decide⟩
  let faces : List Text := ["😀a", "😎a"]
  let apart : Spacing faces.length := ⟨[], [" "], [], rfl, by decide, by decide, by decide⟩
  obtain ⟨scanned, -, alike⟩ := scan_of_spacing
  exact ⟨hruns, (scanned literals hruns mixed).trans (by decide +kernel),
    (alike literals hruns mixed single).1,
    (scanned faces (by decide) apart).trans (by decide +kernel)⟩

end Lambda94
