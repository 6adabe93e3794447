import Lambda94.Text.Basic

/-!
# Blanks

The units that separate the tokens of a program: the tab, the line breaks, and the space
separators of Unicode, together with the byte order mark.  A text falls into the runs between them;
`words_append_blank` says that every blank is a place where it does, and `words_eq_singleton` that
there is no other.
-/

namespace Lambda94.Text

/-- The units of the blanks. -/
def blanks : List Nat :=
  [0x09, 0x0A, 0x0B, 0x0C, 0x0D, 0x20, 0xA0, 0x1680, 0x2000, 0x2001, 0x2002, 0x2003, 0x2004,
    0x2005, 0x2006, 0x2007, 0x2008, 0x2009, 0x200A, 0x2028, 0x2029, 0x202F, 0x205F, 0x3000,
    0xFEFF]

/-- A unit that separates tokens. -/
def isBlank (u : UInt16) : Bool := blanks.contains u.toNat

/-- The maximal runs of non-blank units, in order.  Reading from the right, the pair holds the run
that the next unit would extend and the runs after it. -/
def words (text : Text) : List Text :=
  let (w, ws) := text.foldr step ([], [])
  close w ws
where
  /-- Puts a finished run in front of the runs after it. -/
  close (w : Text) (ws : List Text) : List Text := if w.isEmpty then ws else w :: ws
  /-- Takes one more unit from the right. -/
  step (u : UInt16) : Text × List Text → Text × List Text
    | (w, ws) => if isBlank u then ([], close w ws) else (u :: w, ws)

@[simp] theorem words_nil : words [] = [] := rfl

theorem foldr_step_append (text : Text) (ws : List Text) :
    text.foldr words.step ([], ws) =
      ((text.foldr words.step ([], [])).1, (text.foldr words.step ([], [])).2 ++ ws) := by
  induction text with
  | nil => rfl
  | cons u text ih =>
    rw [List.foldr_cons, List.foldr_cons, ih]
    by_cases hu : isBlank u
    · simp only [words.step, words.close, if_pos hu]
      split <;> rfl
    · simp only [words.step, if_neg hu]

/-- A blank ends the run in front of it. -/
theorem words_append_blank {u : UInt16} (hu : isBlank u) (xs ys : Text) :
    words (xs ++ u :: ys) = words xs ++ words ys := by
  have step : words.step u (ys.foldr words.step ([], [])) = ([], words ys) := by
    simp [words.step, words, hu]
  rw [words, List.foldr_append, List.foldr_cons, step, foldr_step_append]
  simp only [words, words.close]
  split <;> simp

/-- A text without blanks is a single run. -/
theorem words_eq_singleton {text : Text} (hne : text ≠ []) (h : ∀ u ∈ text, isBlank u = false) :
    words text = [text] := by
  have run : text.foldr words.step ([], []) = (text, []) := by
    clear hne
    induction text with
    | nil => rfl
    | cons u text ih =>
      rw [List.foldr_cons, ih fun v hv => h v (List.mem_cons_of_mem _ hv)]
      simp [words.step, h u List.mem_cons_self]
  simp [words, run, words.close, hne]

end Lambda94.Text
