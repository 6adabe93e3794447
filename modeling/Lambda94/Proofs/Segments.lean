import Lambda94.CommandLine.Options
import Lambda94.Proofs.IntegerBody
import Lambda94.Proofs.Outcome
import Lambda94.Proofs.TaggedIntegers

/-!
# Command lines in segments

A command line is read word by word, but an option with a value takes two words at once, so the
role of a word depends on what is to its left.  `Segment` says which words belong together: a flag,
an option with its count, or a word by itself.  The command line is accepted exactly if it is made
up of segments with a command and a path at most among the words by themselves, and then it asks for
what its segments say (`asked`).  If it is not, the segments that can be read come first, and what
follows them is to blame (`Breaks`): `ofArgs_of_segments`.

Flags and counts do not meddle with words (`takeWord_mark`), so the segments of one sort may be
moved past those of the others.
-/

namespace Lambda94

/-! ### Decimal numbers -/

namespace Decimal

/-- At least one decimal digit, and the number that they write. -/
structure Spells (text : Text) (n : Nat) : Prop where
  ne_nil : text ≠ []
  digits : ∀ u ∈ text, IsDigit u
  number : Nat.ofDigits 10 (text.reverse.map fun u => u.toNat - (Text.unit '0').toNat) = n

theorem mapM_digit?_of_isDigit {text : Text} (h : ∀ u ∈ text, IsDigit u) :
    text.mapM digit? = some (text.map fun u => u.toNat - (Text.unit '0').toNat) := by
  induction text with
  | nil => rfl
  | cons u text ih =>
    obtain ⟨hu, htext⟩ := List.forall_mem_cons.1 h
    have hdigit : digit? u = some (u.toNat - (Text.unit '0').toNat) := if_pos (isDigit_iff.1 hu)
    rw [List.mapM_cons, hdigit, ih htext]
    rfl

theorem toNat?_eq_some_iff {text : Text} {n : Nat} : toNat? text = some n ↔ Spells text n := by
  have reads (some : text ≠ []) (all : ∀ u ∈ text, IsDigit u) :
      toNat? text = .some
        (Nat.ofDigits 10 (text.reverse.map fun u => u.toNat - (Text.unit '0').toNat)) := by
    rw [toNat?, if_neg (by simpa using some), mapM_digit?_of_isDigit all, Option.map_some,
      Numeral.value_eq_ofDigits, List.map_reverse]
  constructor
  · intro h
    obtain ⟨some, all⟩ := isSome_toNat?_iff.1 (Option.isSome_of_eq_some h)
    rw [reads some all] at h
    exact ⟨some, all, Option.some.inj h⟩
  · rintro ⟨some, all, rfl⟩
    exact reads some all

end Decimal

namespace CommandLine

/-! ### Segments -/

/-- An option without a value. -/
inductive Flag
  | help
  | version
  | verbose
deriving DecidableEq, Repr

/-- The words for a flag. -/
def Flag.spellings : Flag → List Text
  | .help => ["--help", "-h"]
  | .version => ["--version", "-v"]
  | .verbose => ["--verbose", "-V"]

/-- The words for the option whose value is a count. -/
def countSpellings : List Text := ["--max-iterations", "-n"]

/-- The word is all digits and its number is not zero. -/
def SpellsCount (word : Text) (n : Nat) : Prop := Decimal.Spells word n ∧ 1 ≤ n

/-- The word begins as options do. -/
def LooksOptional (word : Text) : Prop := word.head? = some Decimal.minus

instance (word : Text) : Decidable (LooksOptional word) :=
  inferInstanceAs (Decidable (_ = some Decimal.minus))

/-- The words of a command line that belong together. -/
inductive Segment
  | flag (flag : Flag) (word : Text) (spelled : word ∈ flag.spellings)
  | count (word value : Text) (n : Nat) (spelled : word ∈ countSpellings)
    (counts : SpellsCount value n)
  /-- A word by itself: the command or the path. -/
  | alone (word : Text) (plain : ¬ LooksOptional word)

namespace Segment

/-- The words of a segment. -/
def words : Segment → List Text
  | .flag _ word _ => [word]
  | .count word value .. => [word, value]
  | .alone word _ => [word]

/-- The flag that a segment is, if it is one. -/
def flag? : Segment → Option Flag
  | .flag f .. => some f
  | _ => none

/-- The count that a segment gives, if it gives one. -/
def count? : Segment → Option Nat
  | .count _ _ n .. => some n
  | _ => none

/-- The word by itself that a segment is, if it is one. -/
def word? : Segment → Option Text
  | .alone word _ => some word
  | _ => none

end Segment

/-- The command line that is made up of segments. -/
def written (segments : List Segment) : List Text := segments.flatMap Segment.words

/-- The flags among segments. -/
def flagsIn (segments : List Segment) : List Flag := segments.filterMap Segment.flag?

/-- The counts that segments give, in order. -/
def countsIn (segments : List Segment) : List Nat := segments.filterMap Segment.count?

/-- The words by themselves among segments, in order. -/
def wordsIn (segments : List Segment) : List Text := segments.filterMap Segment.word?

/-- Of the words by themselves, the first is a command, and there are at most two. -/
structure Admissible (segments : List Segment) : Prop where
  few : (wordsIn segments).length ≤ 2
  command : ∀ word ∈ (wordsIn segments).head?, ∃ verb : Verb, verb.name = word

/-- What segments ask for. -/
def asked (segments : List Segment) : Options where
  help := decide (.help ∈ flagsIn segments)
  version := decide (.version ∈ flagsIn segments)
  verbose := decide (.verbose ∈ flagsIn segments)
  budget := Number.ofNat ((countsIn segments).getLast?.getD ({} : Limits).iterations)
  command := (wordsIn segments).head?.bind Verb.ofName?
  path := (wordsIn segments)[1]?

/-- After the segments, this rest of a command line does not go on with another one. -/
inductive Breaks (segments : List Segment) : List Text → UsageError → Prop
  | noValue {word : Text} (spelled : word ∈ countSpellings) :
    Breaks segments [word] (.notPositive word)
  | badValue {word value : Text} {rest : List Text} (spelled : word ∈ countSpellings)
    (other : ∀ n, ¬ SpellsCount value n) :
    Breaks segments (word :: value :: rest) (.notPositive word)
  | unknownOption {word : Text} {rest : List Text} (looks : LooksOptional word)
    (noCount : word ∉ countSpellings) (noFlag : ∀ flag : Flag, word ∉ flag.spellings) :
    Breaks segments (word :: rest) (.unknownOption word)
  | unknownCommand {word : Text} {rest : List Text} (plain : ¬ LooksOptional word)
    (first : wordsIn segments = []) (unknown : ∀ verb : Verb, verb.name ≠ word) :
    Breaks segments (word :: rest) (.unknownCommand word)
  | tooMany {word : Text} {rest : List Text} (plain : ¬ LooksOptional word)
    (full : (wordsIn segments).length = 2) : Breaks segments (word :: rest) .tooManyArguments

section

variable (segments segments' : List Segment) (segment : Segment)

@[simp] theorem written_nil : written [] = [] := rfl

@[simp] theorem written_cons : written (segment :: segments) = segment.words ++ written segments :=
  List.flatMap_cons

@[simp] theorem written_append :
    written (segments ++ segments') = written segments ++ written segments' :=
  List.flatMap_append

@[simp] theorem wordsIn_append :
    wordsIn (segments ++ segments') = wordsIn segments ++ wordsIn segments' :=
  List.filterMap_append

end

theorem Segment.words_ne_nil (segment : Segment) : segment.words ≠ [] := by
  cases segment with
  | flag | count | alone => exact List.cons_ne_nil _ _

/-! ### Taking words -/

namespace Options

variable {word value : Text} {n : Nat}

theorem count?_eq_some_iff : count? value = some n ↔ SpellsCount value n := by
  rw [count?, Option.filter_eq_some_iff, Decimal.toNat?_eq_some_iff]
  simp [SpellsCount, Nat.one_le_iff_ne_zero]

theorem count?_eq_none_iff : count? value = none ↔ ∀ n, ¬ SpellsCount value n := by
  simp only [Option.eq_none_iff_forall_ne_some, ne_eq, count?_eq_some_iff]

theorem verb_ofName?_name (verb : Verb) : Verb.ofName? verb.name = some verb := by
  cases verb <;> rfl

theorem verb_ofName?_eq_none_iff : Verb.ofName? word = none ↔ ∀ verb : Verb, verb.name ≠ word := by
  constructor
  · rintro h verb rfl
    rw [verb_ofName?_name] at h
    cases h
  · intro h
    exact List.find?_eq_none.2 fun verb _ => by simpa using h verb

/-- The options with a flag. -/
def raise : Flag → Options → Options
  | .help, options => { options with help := true }
  | .version, options => { options with version := true }
  | .verbose, options => { options with verbose := true }

variable (options : Options) (rest : List Text)

theorem take_flag {flag : Flag} (spelled : word ∈ flag.spellings) :
    take options (word :: rest) = take (raise flag options) rest := by
  cases flag <;> obtain rfl | rfl : word = _ ∨ word = _ := by simpa [Flag.spellings] using spelled
  all_goals
    rw [take.eq_def]
    simp [raise]

theorem take_count (spelled : word ∈ countSpellings) (counts : SpellsCount value n) :
    take options (word :: value :: rest) =
      take { options with budget := Number.ofNat n } rest := by
  have hvalue : count? value = some n := count?_eq_some_iff.2 counts
  obtain rfl | rfl : word = _ ∨ word = _ := by simpa [countSpellings] using spelled
  all_goals
    rw [take.eq_def]
    simp [hvalue]

theorem take_noValue (spelled : word ∈ countSpellings) :
    take options [word] = .error (.notPositive word) := by
  obtain rfl | rfl : word = _ ∨ word = _ := by simpa [countSpellings] using spelled
  all_goals
    rw [take.eq_def]
    simp

theorem take_badValue (spelled : word ∈ countSpellings) (other : ∀ n, ¬ SpellsCount value n) :
    take options (word :: value :: rest) = .error (.notPositive word) := by
  have hvalue : count? value = none := count?_eq_none_iff.2 other
  obtain rfl | rfl : word = _ ∨ word = _ := by simpa [countSpellings] using spelled
  all_goals
    rw [take.eq_def]
    simp [hvalue]

/-- A word that is no option the tool has is refused if it looks like one, and taken by itself
otherwise. -/
theorem take_other (noCount : word ∉ countSpellings)
    (noFlag : ∀ flag : Flag, word ∉ flag.spellings) :
    take options (word :: rest) =
      if LooksOptional word then .error (.unknownOption word)
      else options.takeWord word >>= fun options => take options rest := by
  have help := noFlag .help
  have version := noFlag .version
  have verbose := noFlag .verbose
  simp only [Flag.spellings, countSpellings, List.mem_cons, List.not_mem_nil, or_false] at *
  rw [take.eq_def]
  simp only [help, version, verbose, noCount, if_false]
  rfl

theorem looksOptional_of_mem_spellings {flag : Flag} (spelled : word ∈ flag.spellings) :
    LooksOptional word := by
  have all : ∀ flag : Flag, ∀ word ∈ flag.spellings, LooksOptional word := by
    rintro (_ | _ | _) <;> decide
  exact all flag word spelled

theorem looksOptional_of_mem_countSpellings (spelled : word ∈ countSpellings) :
    LooksOptional word := by
  have all : ∀ word ∈ countSpellings, LooksOptional word := by decide
  exact all word spelled

theorem take_word (plain : ¬ LooksOptional word) :
    take options (word :: rest) = options.takeWord word >>= fun options => take options rest := by
  rw [take_other options rest (mt looksOptional_of_mem_countSpellings plain)
    fun _ => mt looksOptional_of_mem_spellings plain, if_neg plain]

/-! ### Taking segments -/

/-- The options after a segment that is no word by itself. -/
def mark (options : Options) : Segment → Options
  | .flag f .. => raise f options
  | .count _ _ n .. => { options with budget := Number.ofNat n }
  | .alone .. => options

/-- The options after the flags and counts among segments. -/
def marked (segments : List Segment) (options : Options) : Options := segments.foldl mark options

theorem mark_withWords (segment : Segment) (command : Option Verb) (path : Option Text) :
    mark { options with command, path } segment = { mark options segment with command, path } := by
  cases segment with
  | flag f => cases f <;> rfl
  | count | alone => rfl

/-- A flag or a count has nothing to do with what is made of a word by itself. -/
theorem takeWord_mark (word : Text) (segment : Segment) :
    (options.mark segment).takeWord word = (options.takeWord word).map (mark · segment) := by
  obtain ⟨help, version, verbose, budget, command, path⟩ := options
  have same (command' : Option Verb) (path' : Option Text) :=
    mark_withWords ⟨help, version, verbose, budget, command, path⟩ segment command' path'
  rw [same command path, takeWord, takeWord]
  cases command with
  | none =>
    dsimp only
    cases Verb.ofName? word with
    | none => rfl
    | some verb => exact congrArg Except.ok (same (some verb) path).symm
  | some verb =>
    cases path with
    | none => exact congrArg Except.ok (same (some verb) (some word)).symm
    | some path => rfl

theorem takeWord_marked (word : Text) (segments : List Segment) :
    (marked segments options).takeWord word = (options.takeWord word).map (marked segments) := by
  induction segments generalizing options with
  | nil =>
    show options.takeWord word = _
    cases options.takeWord word <;> rfl
  | cons segment segments ih =>
    show (marked segments (options.mark segment)).takeWord word = _
    rw [ih, takeWord_mark]
    cases options.takeWord word <;> rfl

/-- The flags and counts among segments may be taken before the words by themselves. -/
theorem take_written (segments : List Segment) :
    take options (written segments ++ rest) =
      (wordsIn segments).foldlM takeWord (marked segments options) >>= (take · rest) := by
  induction segments generalizing options with
  | nil => rfl
  | cons segment segments ih =>
    rw [written_cons, List.append_assoc]
    cases segment with
    | flag f word spelled =>
      show take options (word :: (written segments ++ rest)) = _
      rw [take_flag _ _ spelled, ih]
      rfl
    | count word value n spelled counts =>
      show take options (word :: value :: (written segments ++ rest)) = _
      rw [take_count _ _ spelled counts, ih]
      rfl
    | alone word plain =>
      show take options (word :: (written segments ++ rest)) =
        (word :: wordsIn segments).foldlM takeWord (marked segments options) >>= _
      rw [take_word _ _ plain, List.foldlM_cons, takeWord_marked]
      cases options.takeWord word with
      | error error => rfl
      | ok taken => exact ih taken

theorem marked_eq (segments : List Segment) :
    marked segments options =
      { options with
        help := options.help || decide (.help ∈ flagsIn segments)
        version := options.version || decide (.version ∈ flagsIn segments)
        verbose := options.verbose || decide (.verbose ∈ flagsIn segments)
        budget := (countsIn segments).getLast?.elim options.budget Number.ofNat } := by
  induction segments generalizing options with
  | nil => simp [marked, flagsIn, countsIn]
  | cons segment segments ih =>
    show marked segments (options.mark segment) = _
    rw [ih]
    cases segment with
    | flag f => cases f <;> simp [mark, raise, flagsIn, countsIn, Segment.flag?, Segment.count?]
    | count word value n =>
      simp only [mark, flagsIn, countsIn, List.filterMap_cons, Segment.flag?, Segment.count?,
        List.getLast?_cons]
      cases (segments.filterMap Segment.count?).getLast? <;> rfl
    | alone => simp [mark, flagsIn, countsIn, Segment.flag?, Segment.count?]

/-- A command line that begins with admissible segments asks for them. -/
theorem take_of_admissible {segments : List Segment} (h : Admissible segments) :
    take {} (written segments ++ rest) = take (asked segments) rest := by
  have hasked : asked segments =
      { marked segments {} with
        command := (wordsIn segments).head?.bind Verb.ofName?
        path := (wordsIn segments)[1]? } := by
    rw [marked_eq, asked]
    cases (countsIn segments).getLast? <;> simp
  have blank : (marked segments {}).command = none ∧ (marked segments {}).path = none := by
    rw [marked_eq]
    exact ⟨rfl, rfl⟩
  rw [take_written, hasked]
  obtain ⟨few, command⟩ := h
  generalize wordsIn segments = words at few command ⊢
  generalize marked segments {} = options at blank ⊢
  obtain ⟨help, version, verbose, budget, _, _⟩ := options
  obtain ⟨⟨⟩, ⟨⟩⟩ := blank
  rcases words with _ | ⟨word, _ | ⟨path, _ | ⟨more, words⟩⟩⟩
  · rfl
  · obtain ⟨verb, rfl⟩ := command word rfl
    cases verb <;> rfl
  · obtain ⟨verb, rfl⟩ := command word rfl
    cases verb <;> rfl
  · simp at few

end Options

/-! ### Where a command line breaks off -/

open Options

variable {segments : List Segment} {segment : Segment} {rest : List Text} {error : UsageError}

theorem admissible_nil : Admissible [] := ⟨by decide, nofun⟩

theorem Admissible.append_of_word?_eq_none (h : Admissible segments)
    (other : segment.word? = none) : Admissible (segments ++ [segment]) := by
  have same : wordsIn (segments ++ [segment]) = wordsIn segments := by
    rw [wordsIn_append, wordsIn, wordsIn, List.filterMap_cons, other, List.filterMap_nil,
      List.append_nil]
  exact ⟨same ▸ h.few, same ▸ h.command⟩

/-- What does not break goes on with a segment. -/
theorem goes_on_or_breaks (h : Admissible segments) (some : rest ≠ []) :
    (∃ segment rest', rest = segment.words ++ rest' ∧ Admissible (segments ++ [segment])) ∨
      ∃ error, Breaks segments rest error := by
  obtain ⟨word, rest, rfl⟩ := List.exists_cons_of_ne_nil some
  by_cases hcount : word ∈ countSpellings
  · cases rest with
    | nil => exact .inr ⟨_, .noValue hcount⟩
    | cons value rest =>
      by_cases hvalue : ∃ n, SpellsCount value n
      · obtain ⟨n, counts⟩ := hvalue
        exact .inl ⟨.count word value n hcount counts, rest, rfl, h.append_of_word?_eq_none rfl⟩
      · exact .inr ⟨_, .badValue hcount fun n counts => hvalue ⟨n, counts⟩⟩
  by_cases hflag : ∃ flag : Flag, word ∈ flag.spellings
  · obtain ⟨flag, spelled⟩ := hflag
    exact .inl ⟨.flag flag word spelled, rest, rfl, h.append_of_word?_eq_none rfl⟩
  by_cases hlooks : LooksOptional word
  · exact .inr ⟨_, .unknownOption hlooks hcount fun flag spelled => hflag ⟨flag, spelled⟩⟩
  -- The word stands by itself; what it may be depends on how many of those came before.
  have goes (admissible : Admissible (segments ++ [.alone word hlooks])) :
      ∃ segment rest', word :: rest = segment.words ++ rest' ∧ Admissible (segments ++ [segment]) :=
    ⟨.alone word hlooks, rest, rfl, admissible⟩
  have words : wordsIn (segments ++ [.alone word hlooks]) = wordsIn segments ++ [word] :=
    wordsIn_append _ _
  obtain ⟨few, command⟩ := h
  cases hwords : wordsIn segments with
  | nil =>
    rw [hwords] at words
    by_cases hverb : ∃ verb : Verb, verb.name = word
    · refine .inl (goes ⟨words ▸ by simp, words ▸ ?_⟩)
      rintro _ ⟨⟩
      exact hverb
    · exact .inr ⟨_, .unknownCommand hlooks hwords fun verb name => hverb ⟨verb, name⟩⟩
  | cons first others =>
    rw [hwords] at words few command
    cases others with
    | nil => exact .inl (goes ⟨words ▸ by simp, words ▸ command⟩)
    | cons second others =>
      have full : (wordsIn segments).length = 2 := by
        rw [hwords]
        simp only [List.length_cons] at few ⊢
        omega
      exact .inr ⟨_, .tooMany hlooks full⟩

/-- What breaks does not go on with a segment. -/
theorem Breaks.not_admissible (h : Breaks segments (segment.words ++ rest) error) :
    ¬ Admissible (segments ++ [segment]) := by
  intro admissible
  cases segment with
  | flag flag word spelled =>
    have apart : word ∉ countSpellings := by
      have all : ∀ flag : Flag, ∀ word ∈ flag.spellings, word ∉ countSpellings := by
        rintro (_ | _ | _) <;> decide
      exact all flag word spelled
    have looks := looksOptional_of_mem_spellings spelled
    cases h with
    | noValue spelled' => exact apart spelled'
    | badValue spelled' => exact apart spelled'
    | unknownOption _ _ noFlag => exact noFlag flag spelled
    | unknownCommand plain => exact plain looks
    | tooMany plain => exact plain looks
  | count word value n spelled counts =>
    have looks := looksOptional_of_mem_countSpellings spelled
    cases h with
    | badValue _ other => exact other n counts
    | unknownOption _ noCount => exact noCount spelled
    | unknownCommand plain => exact plain looks
    | tooMany plain => exact plain looks
  | alone word plain =>
    obtain ⟨few, command⟩ := admissible
    rw [wordsIn_append] at few command
    cases h with
    | noValue spelled => exact plain (looksOptional_of_mem_countSpellings spelled)
    | badValue spelled => exact plain (looksOptional_of_mem_countSpellings spelled)
    | unknownOption looks => exact plain looks
    | unknownCommand _ first unknown =>
      rw [first] at command
      obtain ⟨verb, name⟩ := command word rfl
      exact unknown verb name
    | tooMany _ full =>
      rw [List.length_append, full] at few
      exact absurd few (Nat.not_succ_le_self 2)

/-- The error is that of the rest after the segments. -/
theorem Breaks.take_asked (h : Breaks segments rest error) (admissible : Admissible segments) :
    take (asked segments) rest = .error error := by
  cases h with
  | noValue spelled => exact take_noValue _ spelled
  | badValue spelled other => exact take_badValue _ _ spelled other
  | unknownOption looks noCount noFlag => rw [take_other _ _ noCount noFlag, if_pos looks]
  | unknownCommand plain first unknown =>
    have hcommand : (asked segments).command = none := by rw [asked, first]; rfl
    rw [take_word _ _ plain, takeWord, hcommand, verb_ofName?_eq_none_iff.2 unknown]
    rfl
  | tooMany plain full =>
    obtain ⟨first, second, hwords⟩ := List.length_eq_two.1 full
    obtain ⟨verb, rfl⟩ := admissible.command first (by rw [hwords]; rfl)
    have hcommand : (asked segments).command = some verb := by
      rw [asked, hwords]
      exact verb_ofName?_name verb
    have hpath : (asked segments).path = some second := by rw [asked, hwords]; rfl
    rw [take_word _ _ plain, takeWord, hcommand, hpath]
    rfl

/-- Every command line begins with admissible segments, and either ends there or breaks. -/
theorem exists_segments (args : List Text) : ∃ segments, Admissible segments ∧
    (args = written segments ∨
      ∃ rest error, args = written segments ++ rest ∧ Breaks segments rest error) := by
  have onward (n : Nat) (seen : List Segment) (rest : List Text) (hn : rest.length ≤ n)
      (h : Admissible seen) : ∃ segments, Admissible segments ∧
        (written seen ++ rest = written segments ∨ ∃ rest' error,
          written seen ++ rest = written segments ++ rest' ∧ Breaks segments rest' error) := by
    induction n generalizing seen rest with
    | zero =>
      obtain rfl := List.length_eq_zero_iff.1 (Nat.le_zero.1 hn)
      exact ⟨seen, h, .inl (List.append_nil _)⟩
    | succ n ih =>
      by_cases hrest : rest = []
      · exact ⟨seen, h, .inl (by rw [hrest, List.append_nil])⟩
      rcases goes_on_or_breaks h hrest with ⟨segment, rest', rfl, admissible⟩ | ⟨error, breaks⟩
      · have hpos := List.length_pos_iff.2 segment.words_ne_nil
        rw [List.length_append] at hn
        have := ih (seen ++ [segment]) rest' (by omega) admissible
        rwa [written_append, written_cons, written_nil, List.append_nil, List.append_assoc] at this
      · exact ⟨seen, h, .inr ⟨rest, error, rfl, breaks⟩⟩
  exact onward args.length [] args (Nat.le_refl _) admissible_nil

/-! ### Main result -/

/-- A command line is accepted exactly if it is made up of segments in which the words by themselves
are a command and a path at most; it asks for what the segments say: the flags that occur, the last
count, the command and the path.  Segments may change places if the counts keep their order and so
do the words by themselves.  A command line that is not accepted is refused because of what follows
the segments at its beginning, which does not go on with another one. -/
theorem ofArgs_of_segments :
    (∀ args options, ofArgs args = .ok options ↔
      ∃ segments, args = written segments ∧ Admissible segments ∧ options = asked segments) ∧
    (∀ segments segments' : List Segment, segments.Perm segments' →
      countsIn segments = countsIn segments' → wordsIn segments = wordsIn segments' →
        ofArgs (written segments) = ofArgs (written segments')) ∧
    ∀ args error, ofArgs args = .error error ↔
      ∃ segments rest, args = written segments ++ rest ∧ Admissible segments ∧
        Breaks segments rest error ∧
          ∀ segment, segment.words <+: rest → ¬ Admissible (segments ++ [segment]) := by
  have accepts {segments : List Segment} (h : Admissible segments) :
      ofArgs (written segments) = .ok (asked segments) := by
    have := take_of_admissible [] h
    rwa [List.append_nil] at this
  have refuses {segments : List Segment} {rest : List Text} {error : UsageError}
      (h : Admissible segments) (breaks : Breaks segments rest error) :
      ofArgs (written segments ++ rest) = .error error :=
    (take_of_admissible rest h).trans (breaks.take_asked h)
  refine ⟨fun args options => ⟨fun outcome => ?_, ?_⟩,
    fun segments segments' perm counts words => ?_, fun args error => ⟨fun outcome => ?_, ?_⟩⟩
  · obtain ⟨segments, h, rfl | ⟨rest, error, rfl, breaks⟩⟩ := exists_segments args
    · cases outcome.symm.trans (accepts h)
      exact ⟨segments, rfl, h, rfl⟩
    · cases outcome.symm.trans (refuses h breaks)
  · rintro ⟨segments, rfl, h, rfl⟩
    exact accepts h
  · have flags (flag : Flag) : flag ∈ flagsIn segments ↔ flag ∈ flagsIn segments' :=
      (perm.filterMap Segment.flag?).mem_iff
    have same : marked segments {} = marked segments' {} := by
      simp only [marked_eq, flags, counts]
    have hwritten := take_written {} [] segments
    have hwritten' := take_written {} [] segments'
    rw [List.append_nil] at hwritten hwritten'
    rw [ofArgs, ofArgs, hwritten, hwritten', same, words]
  · obtain ⟨segments, h, rfl | ⟨rest, error', rfl, breaks⟩⟩ := exists_segments args
    · cases outcome.symm.trans (accepts h)
    · cases outcome.symm.trans (refuses h breaks)
      refine ⟨segments, rest, rfl, h, breaks, fun segment ⟨rest', hrest⟩ => ?_⟩
      rw [← hrest] at breaks
      exact breaks.not_admissible
  · rintro ⟨segments, rest, rfl, h, breaks, -⟩
    exact refuses h breaks

/-- Two counts, a flag, a command and a path, in one order and in another; and a flag where a count
is expected, behind a command. -/
theorem ofArgs_of_segments_mixed :
    ofArgs ["-n", "5", "-V", "run", "--max-iterations", "07", "a.icfp"] =
      ofArgs ["run", "-n", "5", "a.icfp", "--max-iterations", "07", "-V"] ∧
    ofArgs ["run", "-n", "5", "a.icfp", "--max-iterations", "07", "-V"] =
      .ok { verbose := true, budget := Number.ofNat 7, command := some .run,
            path := some "a.icfp" } ∧
    ∃ segments rest, (["run", "-n", "--help", "7"] : List Text) = written segments ++ rest ∧
      Admissible segments ∧ Breaks segments rest (.notPositive "-n") := by
  have digits (word : Text) (n : Nat) (h : Options.count? word = some n) : SpellsCount word n :=
    count?_eq_some_iff.1 h
  let five : Segment := .count "-n" "5" 5 (by decide) (digits _ _ (by decide))
  let seven : Segment := .count "--max-iterations" "07" 7 (by decide) (digits _ _ (by decide))
  let verbose : Segment := .flag .verbose "-V" (by decide)
  let command : Segment := .alone "run" (by decide)
  let path : Segment := .alone "a.icfp" (by decide)
  have perm : [five, verbose, command, seven, path].Perm [command, five, path, seven, verbose] := by
    show ([five, verbose] ++ command :: [seven, path]).Perm _
    exact List.perm_middle.trans
      (.cons command (.cons five (List.reverse_perm [path, seven, verbose])))
  obtain ⟨-, alike, refuses⟩ := ofArgs_of_segments
  have refused : ofArgs ["run", "-n", "--help", "7"] = .error (.notPositive "-n") := by
    decide +kernel
  obtain ⟨segments, rest, split, h, breaks, -⟩ := (refuses _ _).1 refused
  exact ⟨alike _ _ perm rfl rfl, by decide +kernel, segments, rest, split, h, breaks⟩

end CommandLine

end Lambda94
