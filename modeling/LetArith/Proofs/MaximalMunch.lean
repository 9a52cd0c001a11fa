import LetArith.Proofs.Printing
import Mathlib.Data.List.Induction
import Mathlib.Data.Nat.Digits.Defs

/-!
# LetArith.Proofs.MaximalMunch — a text as lexemes with blanks between them

The tokens of a text, said without the scanner.  `Cursor.Munches` takes a text apart from left to right:
blanks, a lexeme that ends where the text does not go on with it, blanks, the next lexeme, and so on.  A
text that cannot be taken apart to its end has a first place where no lexeme stands, and
`LexicalError.At` says what is wrong there.

* `Token.writtenAs_iff_spells`: the scanner reads a literal as the number that its digits stand for.
* `Cursor.exists_munches`: every text is taken apart, to its end or to an error.
* `Cursor.Munches.tokens_eq`: the tokens of a text are those of its lexemes and those of what is behind
  them.
* `tokenize_is_maximal_munch`: so the tokens of a text are its lexemes, and its error is at the first
  place without one.
-/

namespace LetArith

/-! ### Lexemes -/

/-- The number that decimal digits stand for: the last one counts ones, the one before it tens, and so on. -/
def decimalValue (digits : List Char) : Nat :=
  Nat.ofDigits 10 (digits.reverse.map fun c => c.toNat - '0'.toNat)

/-- The number of a literal, below zero if it has a minus sign. -/
def signedValue (negative : Bool) (digits : List Char) : Int :=
  if negative then -(decimalValue digits : Int) else decimalValue digits

/-- By induction from the last digit, since the one that is read last counts ones. -/
theorem ofDigitChars_eq_decimalValue (digits : List Char) :
    Nat.ofDigitChars 10 digits 0 = decimalValue digits := by
  induction digits using List.reverseRecOn with
  | nil => rfl
  | append_singleton digits c ih =>
    have step : Nat.ofDigitChars 10 (digits ++ [c]) 0 =
        10 * Nat.ofDigitChars 10 digits 0 + (c.toNat - '0'.toNat) := by
      simp [Nat.ofDigitChars, List.foldl_append]
    rw [step, ih, decimalValue, decimalValue, List.reverse_append, List.reverse_singleton,
      List.singleton_append, List.map_cons, Nat.ofDigits_cons, Nat.add_comm]

theorem literalValue_eq_signedValue (negative : Bool) (digits : List Char) :
    literalValue negative digits = signedValue negative digits := by
  simp only [literalValue, signedValue, ofDigitChars_eq_decimalValue]

namespace Token

/-- The lexemes, and the tokens that they mean: three signs, names, and numbers of 32 bits. -/
inductive WrittenAs : Token → List Char → Prop
  | openParen : WrittenAs .openParen ['(']
  | closeParen : WrittenAs .closeParen [')']
  | comma : WrittenAs .comma [',']
  | word {text : String} (name : IsName text) : WrittenAs (.word text) text.toList
  | integer {negative : Bool} {digits : List Char} {value : Int32} (nonempty : digits ≠ [])
      (all : ∀ c ∈ digits, c.isDigit = true) (same : value.toInt = signedValue negative digits) :
      WrittenAs (.integer value) (literalText negative digits).toList

theorem writtenAs_iff_spells {token : Token} {chars : List Char} :
    token.WrittenAs chars ↔ token.Spells chars := by
  constructor
  · intro h
    cases h with
    | openParen => exact .punctuation rfl
    | closeParen => exact .punctuation rfl
    | comma => exact .punctuation rfl
    | word name => exact .word name
    | integer nonempty all same =>
      exact .integer nonempty all (int32?_eq_some_iff.mpr (same.trans (literalValue_eq_signedValue _ _).symm))
  · intro h
    cases h with
    | punctuation sign =>
      rcases eq_of_punctuation? sign with ⟨rfl, rfl⟩ | ⟨rfl, rfl⟩ | ⟨rfl, rfl⟩
      · exact .openParen
      · exact .closeParen
      · exact .comma
    | word name => exact .word name
    | integer nonempty all fits =>
      exact .integer nonempty all ((int32?_eq_some_iff.mp fits).trans (literalValue_eq_signedValue _ _))

end Token

theorem isBlank_iff {c : Char} : isBlank c = true ↔ c = ' ' := by
  simp [isBlank]

theorem forall_isBlank_iff {chars : List Char} : (∀ c ∈ chars, isBlank c = true) ↔ ∀ c ∈ chars, c = ' ' := by
  simp only [isBlank_iff]

namespace Cursor

/-- From one place of a text to another there are these lexemes, and nothing but blanks before each of
them.  A lexeme fills the columns of its span, and ends where the text does not go on with it. -/
inductive Munches : Cursor → List Lexeme → Cursor → Prop
  | nil (c : Cursor) : Munches c [] c
  | cons {blanks chars rest : List Char} {column : Nat} {token : Token} {lexemes : List Lexeme}
      {last : Cursor} (separate : ∀ c ∈ blanks, c = ' ') (written : token.WrittenAs chars)
      (stop : token.EndsBefore rest)
      (others : Munches ⟨rest, column + blanks.length + chars.length⟩ lexemes last) :
      Munches ⟨blanks ++ (chars ++ rest), column⟩
        (⟨token, ⟨column + blanks.length, column + blanks.length + chars.length⟩⟩ :: lexemes) last

/-! ### One lexeme -/

variable {c next last : Cursor} {lexeme : Lexeme} {lexemes : List Lexeme} {e : LexicalError}

/-- What is read is munched. -/
theorem munches_of_scan (h : c.scan = (.ok lexeme, next)) (ht : lexeme.token ≠ .endOfInput) :
    Munches c [lexeme] next := by
  rcases spells_of_scanLexeme h with ⟨-, rfl, -⟩ | ⟨chars, spells, stop, hr, span, column⟩
  · exact absurd rfl ht
  · obtain ⟨token, found⟩ := lexeme
    obtain ⟨rest, behind⟩ := next
    obtain rfl : found = ⟨(c.skipWhile isBlank).column, behind⟩ := span
    obtain rfl : behind = (c.skipWhile isBlank).column + chars.length := column
    have separate := forall_isBlank_iff.mp (forall_mem_run isBlank c)
    have munched : Munches ⟨c.run isBlank ++ (chars ++ rest), c.column⟩ _ _ :=
      .cons separate (Token.writtenAs_iff_spells.mpr spells) stop (.nil _)
    have whole : c.run isBlank ++ (chars ++ rest) = c.rest := by
      rw [← run_append_rest_skipWhile isBlank c, hr]
    rw [whole] at munched
    exact munched

theorem scan_of_blanks {blanks : List Char} (separate : ∀ c ∈ blanks, c = ' ') (column : Nat) :
    scan ⟨blanks, column⟩ =
      (.ok ⟨.endOfInput, ⟨column + blanks.length, column + blanks.length⟩⟩,
        ⟨[], column + blanks.length⟩) := by
  have skip : skipWhile isBlank ⟨blanks ++ [], column⟩ = ⟨[], column + blanks.length⟩ :=
    (run_append column (forall_isBlank_iff.mpr separate) (by simp)).2
  rw [List.append_nil] at skip
  rw [scan, skip]
  rfl

/-- Only blanks stand before the end of the text. -/
theorem blanks_of_scan (h : c.scan = (.ok lexeme, next)) (ht : lexeme.token = .endOfInput) :
    ∀ ch ∈ c.rest, ch = ' ' := by
  rcases spells_of_scanLexeme h with ⟨hr, -, -⟩ | ⟨chars, spells, -⟩
  · rw [← run_append_rest_skipWhile isBlank c, hr, List.append_nil]
    exact forall_isBlank_iff.mp (forall_mem_run isBlank c)
  · exact absurd ht spells.ne_endOfInput

/-! ### No lexeme -/

/-- Neither a blank nor a lexeme stands first. -/
def NoLexeme (rest : List Char) : Prop :=
  rest ≠ [] ∧ rest.head? ≠ some ' ' ∧
    ∀ token chars behind, rest = chars ++ behind → Token.WrittenAs token chars → ¬ token.EndsBefore behind

theorem noLexeme_of_scanLexeme (h : c.scanLexeme = (.error e, next)) (first : c.rest.head? ≠ some ' ') :
    NoLexeme c.rest := by
  refine ⟨fun nothing => ?_, first, fun token chars behind split written stop => ?_⟩
  · simp [scanLexeme, nothing] at h
  · have found := scanLexeme_of_spells (Token.writtenAs_iff_spells.mp written) stop c.column
    rw [← split, h] at found
    cases found

end Cursor

/-- What is wrong with characters that start in `column`, among which no lexeme stands first: a number
that is too large, a minus sign without digits, or else the character. -/
inductive LexicalError.At (column : Nat) : List Char → LexicalError → Prop
  | integerOverflow {negative : Bool} {digits behind : List Char} (nonempty : digits ≠ [])
      (all : ∀ c ∈ digits, c.isDigit = true) (stop : ∀ c ∈ behind.head?, c.isDigit = false)
      (large : signedValue negative digits < -2147483648 ∨ 2147483647 < signedValue negative digits) :
      At column ((literalText negative digits).toList ++ behind)
        (.integerOverflow (literalText negative digits)
          ⟨column, column + (literalText negative digits).toList.length⟩)
  | missingDigits {behind : List Char} (stop : ∀ c ∈ behind.head?, c.isDigit = false) :
      At column ('-' :: behind) (.missingDigits (.single column))
  | invalidCharacter {found : Char} (behind : List Char) (noSign : found ≠ '-')
      (noDigit : found.isDigit = false) :
      At column (found :: behind) (.invalidCharacter found (.single column))

/-- Where a literal ends, its digits are known from the text. -/
theorem literalText_unique {negative negative' : Bool} {digits digits' behind behind' : List Char}
    (nonempty : digits ≠ []) (nonempty' : digits' ≠ []) (all : ∀ c ∈ digits, c.isDigit = true)
    (all' : ∀ c ∈ digits', c.isDigit = true) (stop : ∀ c ∈ behind.head?, c.isDigit = false)
    (stop' : ∀ c ∈ behind'.head?, c.isDigit = false)
    (h : (literalText negative digits).toList ++ behind = (literalText negative' digits').toList ++ behind') :
    literalText negative digits = literalText negative' digits' := by
  -- behind the sign, both are the longest run of digits of the same characters
  have same (heq : digits ++ behind = digits' ++ behind') : digits = digits' := by
    rw [← (Cursor.run_append 0 all stop).1, ← (Cursor.run_append 0 all' stop').1, heq]
  obtain ⟨first, others, rfl⟩ := List.exists_cons_of_ne_nil nonempty
  obtain ⟨first', others', rfl⟩ := List.exists_cons_of_ne_nil nonempty'
  cases negative <;> cases negative' <;> simp only [literalText, String.toList_ofList, if_true, if_false,
    Bool.false_eq_true, List.cons_append] at h
  · rw [same h]
  · obtain ⟨rfl, -⟩ := List.cons_eq_cons.mp h
    have digit := all '-' List.mem_cons_self
    exact absurd digit (by decide)
  · obtain ⟨rfl, -⟩ := List.cons_eq_cons.mp h
    have digit := all' '-' List.mem_cons_self
    exact absurd digit (by decide)
  · rw [same (List.cons_eq_cons.mp h).2]

/-- A literal starts with a minus sign and a digit, or with a digit. -/
theorem literalText_head (negative : Bool) {digits : List Char} (nonempty : digits ≠ [])
    (all : ∀ c ∈ digits, c.isDigit = true) :
    (∃ first others, (literalText negative digits).toList = '-' :: first :: others ∧ first.isDigit = true) ∨
      ∃ first others, (literalText negative digits).toList = first :: others ∧ first.isDigit = true := by
  obtain ⟨first, others, rfl⟩ := List.exists_cons_of_ne_nil nonempty
  have digit := all first List.mem_cons_self
  cases negative with
  | true => exact .inl ⟨first, others, by simp [literalText], digit⟩
  | false => exact .inr ⟨first, others, by simp [literalText], digit⟩

namespace LexicalError.At

variable {column : Nat} {rest : List Char} {e e' : LexicalError}

theorem eq_of_literal {negative : Bool} {digits behind : List Char} (nonempty : digits ≠ [])
    (all : ∀ c ∈ digits, c.isDigit = true) (stop : ∀ c ∈ behind.head?, c.isDigit = false)
    (h : At column rest e) (hr : rest = (literalText negative digits).toList ++ behind) :
    e = .integerOverflow (literalText negative digits)
      ⟨column, column + (literalText negative digits).toList.length⟩ := by
  cases h with
  | integerOverflow nonempty' all' stop' large' =>
    rw [literalText_unique nonempty' nonempty all' all stop' stop hr]
  | missingDigits stop' =>
    rcases literalText_head negative nonempty all with ⟨first, others, hl, digit⟩ | ⟨first, others, hl, digit⟩
    · rw [hl] at hr
      obtain ⟨-, rfl⟩ := List.cons_eq_cons.mp hr
      exact absurd digit (by simp [stop' first rfl])
    · rw [hl] at hr
      obtain ⟨rfl, -⟩ := List.cons_eq_cons.mp hr
      exact absurd digit (by decide)
  | invalidCharacter behind' noSign noDigit =>
    rcases literalText_head negative nonempty all with ⟨first, others, hl, digit⟩ | ⟨first, others, hl, digit⟩
    · rw [hl] at hr
      exact absurd (List.cons_eq_cons.mp hr).1 noSign
    · rw [hl] at hr
      obtain ⟨rfl, -⟩ := List.cons_eq_cons.mp hr
      exact absurd digit (by simp [noDigit])

/-- One thing is wrong at a place. -/
theorem unique (h : At column rest e) (h' : At column rest e') : e = e' := by
  cases h with
  | integerOverflow nonempty all stop large => exact (eq_of_literal nonempty all stop h' rfl).symm
  | missingDigits stop =>
    generalize hr : '-' :: _ = rest at h'
    cases h' with
    | integerOverflow nonempty all stop' large =>
      exact eq_of_literal nonempty all stop' (.missingDigits stop) hr
    | missingDigits stop' => rfl
    | invalidCharacter behind noSign noDigit => exact absurd (List.cons_eq_cons.mp hr).1.symm noSign
  | @invalidCharacter found behind noSign noDigit =>
    generalize hr : found :: behind = rest at h'
    cases h' with
    | integerOverflow nonempty all stop' large =>
      exact eq_of_literal nonempty all stop' (.invalidCharacter behind noSign noDigit) hr
    | missingDigits stop' => exact absurd (List.cons_eq_cons.mp hr).1 noSign
    | invalidCharacter behind' noSign' noDigit' => rw [(List.cons_eq_cons.mp hr).1]

end LexicalError.At

theorem int32?_eq_none_iff {n : Int} : int32? n = none ↔ n < -2147483648 ∨ 2147483647 < n := by
  unfold int32?
  split <;> simp <;> omega

namespace Cursor

variable {c next last : Cursor} {lexeme : Lexeme} {lexemes : List Lexeme} {e : LexicalError}

/-- A number that was read from a digit on is too large with its whole run of digits. -/
theorem at_of_scanInteger {start : Nat} {negative : Bool}
    (h : c.scanInteger start negative = (.error e, next))
    (digit : c.peek.isDigit = true) (column : c.column = start + if negative then 1 else 0) :
    LexicalError.At start
      ((literalText negative (c.run Char.isDigit)).toList ++ (c.skipWhile Char.isDigit).rest) e := by
  have nonempty : c.run Char.isDigit ≠ [] := by
    cases hr : c.rest with
    | nil => exact absurd digit (by simp [peek, hr, endMark])
    | cons first tail =>
      have here : first.isDigit = true := by simpa [peek, hr] using digit
      simp [run, hr, here]
  unfold scanInteger at h
  dsimp only at h
  split at h
  · cases h
  · next large =>
    rw [int32?_eq_none_iff, literalValue_eq_signedValue] at large
    have span : start + (literalText negative (c.run Char.isDigit)).toList.length =
        (c.skipWhile Char.isDigit).column := by
      rw [column_skipWhile, column]
      cases negative with
      | false => simp [literalText]
      | true => simp [literalText, Nat.add_assoc, Nat.add_comm 1]
    cases h
    rw [← span]
    exact .integerOverflow nonempty (forall_mem_run _ c) (head?_rest_skipWhile _ c) large

/-- An error is about the characters at which it stands. -/
theorem at_of_scanLexeme (h : c.scanLexeme = (.error e, next)) : LexicalError.At c.column c.rest e := by
  obtain ⟨rest, column⟩ := c
  cases rest with
  | nil => cases h
  | cons ch tail =>
    cases way ch with
    | digit digit =>
      rw [scanLexeme_digit tail column digit] at h
      simpa [literalText] using at_of_scanInteger h digit rfl
    | sign token sign =>
      rw [scanLexeme_punctuation tail column sign] at h
      cases h
    | minus minus =>
      subst minus
      rw [scanLexeme_minus] at h
      split at h
      · next digit => simpa [literalText] using at_of_scanInteger h digit rfl
      · -- at the end of the text the end mark is shown, which is no digit either
        next other =>
        cases h
        refine .missingDigits fun d hd => ?_
        cases tail with
        | nil => cases hd
        | cons first others =>
          obtain rfl : first = d := by simpa using hd
          simpa [peek] using other
    | letter letter =>
      rw [scanLexeme_letter tail column letter] at h
      cases h
    | none noDigit noSign noMinus noLetter =>
      rw [scanLexeme_none tail column noDigit noSign noMinus noLetter] at h
      cases h
      exact .invalidCharacter tail noMinus noDigit

/-- Where no lexeme stands, there is an error. -/
theorem scan_of_at {blanks rest : List Char} {column : Nat} (separate : ∀ c ∈ blanks, c = ' ')
    (none : NoLexeme rest) (h : LexicalError.At (column + blanks.length) rest e) :
    ∃ next, scan ⟨blanks ++ rest, column⟩ = (.error e, next) := by
  obtain ⟨nonempty, first, blocked⟩ := none
  have here : ∀ c ∈ rest.head?, isBlank c = false := by
    intro c hc
    have ne : c ≠ ' ' := by
      rintro rfl
      exact first hc
    simpa [isBlank] using ne
  have skip := (run_append column (forall_isBlank_iff.mpr separate) here).2
  rw [scan, skip]
  cases hs : scanLexeme ⟨rest, column + blanks.length⟩ with
  | mk result next =>
    cases result with
    | error e' => exact ⟨next, by rw [(at_of_scanLexeme hs).unique h]⟩
    | ok lexeme =>
      rcases spells_of_scanLexeme hs with ⟨hr, -⟩ | ⟨chars, spells, stop, hr, -⟩
      · exact absurd hr nonempty
      · exact absurd stop (blocked _ _ _ hr (Token.writtenAs_iff_spells.mpr spells))

/-- An error is at the first place behind the blanks, and no lexeme stands there. -/
theorem exists_at_of_scan (h : c.scan = (.error e, next)) :
    ∃ blanks rest, c.rest = blanks ++ rest ∧ (∀ ch ∈ blanks, ch = ' ') ∧ NoLexeme rest ∧
      LexicalError.At (c.column + blanks.length) rest e := by
  have first : (c.skipWhile isBlank).rest.head? ≠ some ' ' := fun blank => by
    have other := head?_rest_skipWhile isBlank c ' ' blank
    exact absurd other (by decide)
  exact ⟨_, _, (run_append_rest_skipWhile isBlank c).symm, forall_isBlank_iff.mp (forall_mem_run isBlank c),
    noLexeme_of_scanLexeme h first, at_of_scanLexeme h⟩

/-! ### All lexemes -/

theorem tokens_of_scan (h : c.scan = (.ok lexeme, next)) (ht : lexeme.token ≠ .endOfInput) :
    c.tokens = next.tokens.map (lexeme :: ·) := by
  rw [tokens_eq, scanToken?, h]
  simp [ht]

theorem tokens_of_scan_error (h : c.scan = (.error e, next)) : c.tokens = .error e := by
  rw [tokens_eq, scanToken?, h]

/-- What is munched first is read first. -/
theorem munches_cons_iff : c.Munches (lexeme :: lexemes) last ↔
    ∃ next, c.scan = (.ok lexeme, next) ∧ lexeme.token ≠ .endOfInput ∧ next.Munches lexemes last := by
  constructor
  · intro h
    cases h with
    | cons separate written stop others =>
      have spells := Token.writtenAs_iff_spells.mp written
      exact ⟨_, scan_of_spells (forall_isBlank_iff.mpr separate) spells stop _, spells.ne_endOfInput, others⟩
  · rintro ⟨next, hs, ht, others⟩
    cases munches_of_scan hs ht with
    | cons separate written stop nothing =>
      cases nothing
      exact .cons separate written stop others

theorem munches_append_iff {front back : List Lexeme} :
    c.Munches (front ++ back) last ↔ ∃ middle, c.Munches front middle ∧ middle.Munches back last := by
  induction front generalizing c with
  | nil =>
    constructor
    · exact fun h => ⟨c, .nil c, h⟩
    · rintro ⟨middle, h, others⟩
      cases h
      exact others
  | cons lexeme front ih =>
    rw [List.cons_append, munches_cons_iff]
    constructor
    · rintro ⟨next, hs, ht, h⟩
      obtain ⟨middle, first, others⟩ := ih.mp h
      exact ⟨middle, munches_cons_iff.mpr ⟨next, hs, ht, first⟩, others⟩
    · rintro ⟨middle, h, others⟩
      obtain ⟨next, hs, ht, first⟩ := munches_cons_iff.mp h
      exact ⟨next, hs, ht, ih.mpr ⟨middle, first, others⟩⟩

/-- What is munched is read. -/
theorem Munches.tokens_eq (h : c.Munches lexemes last) : c.tokens = last.tokens.map (lexemes ++ ·) := by
  induction lexemes generalizing c with
  | nil =>
    cases h
    cases last.tokens <;> rfl
  | cons lexeme lexemes ih =>
    obtain ⟨next, hs, ht, others⟩ := munches_cons_iff.mp h
    rw [tokens_of_scan hs ht, ih others]
    cases last.tokens <;> rfl

/-- By induction on the length of the rest: a text is munched up to its end, or up to an error. -/
theorem exists_munches (c : Cursor) : ∃ lexemes last, c.Munches lexemes last ∧
    ((∀ ch ∈ last.rest, ch = ' ') ∨ ∃ e next, last.scan = (.error e, next)) := by
  induction hn : c.rest.length using Nat.strongRecOn generalizing c with
  | ind n ih =>
    cases hs : c.scan with
    | mk result next =>
      cases result with
      | error e => exact ⟨[], c, .nil c, .inr ⟨e, next, hs⟩⟩
      | ok lexeme =>
        by_cases ht : lexeme.token = .endOfInput
        · exact ⟨[], c, .nil c, .inl (blanks_of_scan hs ht)⟩
        · have shorter : next.rest.length < c.rest.length :=
            Nat.lt_of_lt_of_le (length_scanLexeme_lt hs ht) (length_skipWhile_le _ _)
          obtain ⟨lexemes, last, others, ending⟩ := ih next.rest.length (hn ▸ shorter) next rfl
          exact ⟨lexeme :: lexemes, last, munches_cons_iff.mpr ⟨next, hs, ht, others⟩, ending⟩

theorem Munches.tokens_eq_ok (h : c.Munches lexemes last) (ending : ∀ ch ∈ last.rest, ch = ' ') :
    c.tokens = .ok lexemes := by
  have nothing : last.tokens = .ok [] :=
    tokens_eq_ok_nil_iff.mpr ⟨_, _, scan_of_blanks ending last.column, rfl⟩
  rw [h.tokens_eq, nothing]
  simp [Except.map]

theorem Munches.tokens_eq_error (h : c.Munches lexemes last) (failed : last.scan = (.error e, next)) :
    c.tokens = .error e := by
  rw [h.tokens_eq, tokens_of_scan_error failed]
  rfl

theorem tokens_eq_ok_iff_munches :
    c.tokens = .ok lexemes ↔ ∃ last, c.Munches lexemes last ∧ ∀ ch ∈ last.rest, ch = ' ' := by
  constructor
  · intro h
    obtain ⟨found, last, munched, ending | ⟨e, next, failed⟩⟩ := c.exists_munches
    · obtain rfl := Except.ok.inj (h.symm.trans (munched.tokens_eq_ok ending))
      exact ⟨last, munched, ending⟩
    · cases h.symm.trans (munched.tokens_eq_error failed)
  · rintro ⟨last, munched, ending⟩
    exact munched.tokens_eq_ok ending

theorem tokens_eq_error_iff_munches :
    c.tokens = .error e ↔ ∃ lexemes last next, c.Munches lexemes last ∧ last.scan = (.error e, next) := by
  constructor
  · intro h
    obtain ⟨found, last, munched, ending | ⟨e', next, failed⟩⟩ := c.exists_munches
    · cases h.symm.trans (munched.tokens_eq_ok ending)
    · obtain rfl := Except.error.inj (h.symm.trans (munched.tokens_eq_error failed))
      exact ⟨found, last, next, munched, failed⟩
  · rintro ⟨lexemes, last, next, munched, failed⟩
    exact munched.tokens_eq_error failed

end Cursor

/-- A text has these tokens exactly if it is their lexemes with nothing but blanks around them, each as
long as it can be.  It has an error exactly if it is taken apart to a place where no lexeme stands, and
the error says what is wrong there. -/
theorem tokenize_is_maximal_munch (text : String) :
    (∀ lexemes, tokenize text = .ok lexemes ↔
      ∃ last, (Cursor.ofString text).Munches lexemes last ∧ ∀ c ∈ last.rest, c = ' ') ∧
    ∀ e, tokenize text = .error e ↔
      ∃ lexemes last blanks rest, (Cursor.ofString text).Munches lexemes last ∧ last.rest = blanks ++ rest ∧
        (∀ c ∈ blanks, c = ' ') ∧ Cursor.NoLexeme rest ∧
        LexicalError.At (last.column + blanks.length) rest e := by
  refine ⟨fun lexemes => Cursor.tokens_eq_ok_iff_munches, fun e => ?_⟩
  rw [tokenize, Cursor.tokens_eq_error_iff_munches]
  constructor
  · rintro ⟨lexemes, last, next, munched, failed⟩
    obtain ⟨blanks, rest, split, separate, none, wrong⟩ := Cursor.exists_at_of_scan failed
    exact ⟨lexemes, last, blanks, rest, munched, split, separate, none, wrong⟩
  · rintro ⟨lexemes, ⟨_, column⟩, blanks, rest, munched, rfl, separate, none, wrong⟩
    obtain ⟨next, failed⟩ := Cursor.scan_of_at separate none wrong
    exact ⟨lexemes, _, next, munched, failed⟩

end LetArith
