import LetArith.Proofs.MaximalMunch

/-!
# LetArith.Proofs.Concatenation — texts behind one another

The scanner looks at the characters from the cursor on and at nothing else.  Its column is only carried
along, and a blank ends every token just as the end of the text does.  So a text can be read in pieces
that were cut at a blank.

* `Cursor.scan_shift`: the same characters in other columns are the same token in other columns.
* `Cursor.scan_append`: a token is read alike whether the text ends or goes on with a blank.
* `tokenize_append_space`: the tokens of two texts with a blank between them are those of the one and
  those of the other.
-/

namespace LetArith

/-! ### Other columns -/

/-- What a call of the scanner comes to. -/
abbrev Scanned := Except LexicalError Lexeme

/-- The span some columns further to the right. -/
def Span.shift (columns : Nat) (s : Span) : Span := ⟨s.start + columns, s.stop + columns⟩

/-- The token some columns further to the right. -/
def Lexeme.shift (columns : Nat) (found : Lexeme) : Lexeme := ⟨found.token, found.span.shift columns⟩

/-- The error some columns further to the right. -/
def LexicalError.shift (columns : Nat) : LexicalError → LexicalError
  | invalidCharacter found span => invalidCharacter found (span.shift columns)
  | integerOverflow literal span => integerOverflow literal (span.shift columns)
  | missingDigits span => missingDigits (span.shift columns)

/-- What a call of the scanner comes to some columns further to the right. -/
def Scanned.shift (columns : Nat) : Scanned → Scanned
  | .ok found => .ok (found.shift columns)
  | .error e => .error (e.shift columns)

theorem Span.shift_single (columns column : Nat) :
    (single column).shift columns = single (column + columns) := by
  simp only [shift, single, Nat.add_right_comm]

namespace Cursor

/-- The cursor before the same characters some columns further to the right. -/
def shift (columns : Nat) (c : Cursor) : Cursor := ⟨c.rest, c.column + columns⟩

theorem shift_next (columns : Nat) (rest : List Char) (column : Nat) :
    shift columns ⟨rest, column + 1⟩ = ⟨rest, column + columns + 1⟩ := by
  simp only [shift, Nat.add_right_comm]

theorem skipWhile_shift (p : Char → Bool) (columns : Nat) (c : Cursor) :
    (c.shift columns).skipWhile p = (c.skipWhile p).shift columns := by
  simp only [skipWhile, shift, run, Nat.add_right_comm]

theorem scanInteger_shift (columns : Nat) (c : Cursor) (start : Nat) (negative : Bool) :
    (c.shift columns).scanInteger (start + columns) negative =
      (c.scanInteger start negative).map (Scanned.shift columns) (shift columns) := by
  have behind : (c.shift columns).skipWhile Char.isDigit = (c.skipWhile Char.isDigit).shift columns :=
    skipWhile_shift Char.isDigit columns c
  have digits : (c.shift columns).run Char.isDigit = c.run Char.isDigit := rfl
  simp only [scanInteger, behind, digits]
  cases int32? (literalValue negative (c.run Char.isDigit)) <;> rfl

theorem scanWord_shift (columns : Nat) (c : Cursor) :
    (c.shift columns).scanWord = c.scanWord.map (Scanned.shift columns) (shift columns) := by
  have behind : (c.shift columns).skipWhile continuesWord = (c.skipWhile continuesWord).shift columns :=
    skipWhile_shift continuesWord columns c
  simp only [scanWord, behind]
  rfl

theorem scanLexeme_shift (columns : Nat) (c : Cursor) :
    (c.shift columns).scanLexeme = c.scanLexeme.map (Scanned.shift columns) (shift columns) := by
  obtain ⟨rest, column⟩ := c
  cases rest with
  | nil => rfl
  | cons ch rest =>
    show scanLexeme ⟨ch :: rest, column + columns⟩ = _
    cases way ch with
    | digit h =>
      rw [scanLexeme_digit rest _ h, scanLexeme_digit rest _ h]
      exact scanInteger_shift columns ⟨ch :: rest, column⟩ column false
    | sign token h =>
      rw [scanLexeme_punctuation _ _ h, scanLexeme_punctuation _ _ h, ← Span.shift_single, ← shift_next]
      rfl
    | minus h =>
      subst h
      have first : peek (shift columns ⟨rest, column + 1⟩) = peek ⟨rest, column + 1⟩ := rfl
      rw [scanLexeme_minus, scanLexeme_minus, ← shift_next, ← Span.shift_single, scanInteger_shift, first]
      split <;> rfl
    | letter h =>
      rw [scanLexeme_letter rest _ h, scanLexeme_letter rest _ h]
      exact scanWord_shift columns ⟨ch :: rest, column⟩
    | none noDigit noSign noMinus noLetter =>
      rw [scanLexeme_none rest _ noDigit noSign noMinus noLetter,
        scanLexeme_none rest _ noDigit noSign noMinus noLetter, ← Span.shift_single]
      rfl

/-- The same characters in other columns are the same token in other columns. -/
theorem scan_shift (columns : Nat) (c : Cursor) :
    (c.shift columns).scan = c.scan.map (Scanned.shift columns) (shift columns) := by
  rw [scan, skipWhile_shift, scanLexeme_shift, scan]

/-! ### More text behind a blank -/

/-- The cursor with more text behind what remains. -/
def append (more : List Char) (c : Cursor) : Cursor := ⟨c.rest ++ more, c.column⟩

/-- A run ends where it did, unless it took all and goes on behind. -/
theorem run_append_skipWhile {p : Char → Bool} {c : Cursor} {more : List Char}
    (stop : ∀ ch ∈ ((c.skipWhile p).rest ++ more).head?, p ch = false) :
    (c.append more).run p = c.run p ∧ (c.append more).skipWhile p = (c.skipWhile p).append more := by
  have whole : c.append more = ⟨c.run p ++ ((c.skipWhile p).rest ++ more), c.column⟩ := by
    rw [append, ← List.append_assoc, run_append_rest_skipWhile]
  rw [whole]
  exact run_append c.column (forall_mem_run p c) stop

theorem head?_append_blank {p : Char → Bool} {chars : List Char} (stop : ∀ ch ∈ chars.head?, p ch = false)
    (blank : p ' ' = false) (more : List Char) : ∀ ch ∈ (chars ++ ' ' :: more).head?, p ch = false := by
  cases chars with
  | nil => simpa using blank
  | cons first others => simpa using stop

/-- Digits and letters end at a blank as they do at the end of the text. -/
theorem skipWhile_append {p : Char → Bool} (blank : p ' ' = false) (c : Cursor) (more : List Char) :
    (c.append (' ' :: more)).run p = c.run p ∧
      (c.append (' ' :: more)).skipWhile p = (c.skipWhile p).append (' ' :: more) :=
  run_append_skipWhile (head?_append_blank (head?_rest_skipWhile p c) blank more)

theorem scanInteger_append_blank (c : Cursor) (start : Nat) (negative : Bool) (more : List Char) :
    (c.append (' ' :: more)).scanInteger start negative =
      (c.scanInteger start negative).map id (append (' ' :: more)) := by
  obtain ⟨digits, behind⟩ := skipWhile_append (p := Char.isDigit) (by decide) c more
  simp only [scanInteger, digits, behind]
  cases int32? (literalValue negative (c.run Char.isDigit)) <;> rfl

theorem scanWord_append_blank (c : Cursor) (more : List Char) :
    (c.append (' ' :: more)).scanWord = c.scanWord.map id (append (' ' :: more)) := by
  obtain ⟨letters, behind⟩ := skipWhile_append (p := continuesWord) (by decide) c more
  simp only [scanWord, letters, behind]
  rfl

theorem scanLexeme_append_blank {c : Cursor} (h : c.rest ≠ []) (more : List Char) :
    (c.append (' ' :: more)).scanLexeme = c.scanLexeme.map id (append (' ' :: more)) := by
  obtain ⟨rest, column⟩ := c
  cases rest with
  | nil => exact absurd rfl h
  | cons ch rest =>
    show scanLexeme ⟨ch :: (rest ++ ' ' :: more), column⟩ = _
    cases way ch with
    | digit h =>
      rw [scanLexeme_digit _ _ h, scanLexeme_digit _ _ h]
      exact scanInteger_append_blank ⟨ch :: rest, column⟩ column false more
    | sign token h =>
      rw [scanLexeme_punctuation _ _ h, scanLexeme_punctuation _ _ h]
      rfl
    | minus h =>
      subst h
      have number := scanInteger_append_blank ⟨rest, column + 1⟩ column true more
      have first : (peek ⟨rest ++ ' ' :: more, column + 1⟩).isDigit = (peek ⟨rest, column + 1⟩).isDigit := by
        cases rest <;> rfl
      -- a blank behind the sign is no digit, and neither is the end of the text
      rw [scanLexeme_minus, scanLexeme_minus, first]
      split
      · exact number
      · rfl
    | letter h =>
      rw [scanLexeme_letter _ _ h, scanLexeme_letter _ _ h]
      exact scanWord_append_blank ⟨ch :: rest, column⟩ more
    | none noDigit noSign noMinus noLetter =>
      rw [scanLexeme_none _ _ noDigit noSign noMinus noLetter,
        scanLexeme_none _ _ noDigit noSign noMinus noLetter]
      rfl

/-- A token or an error is read alike whether the text ends or goes on with a blank. -/
theorem scan_append_blank {c : Cursor} (h : (c.skipWhile isBlank).rest ≠ []) (more : List Char) :
    (c.append (' ' :: more)).scan = c.scan.map id (append (' ' :: more)) := by
  have stop : ∀ ch ∈ ((c.skipWhile isBlank).rest ++ ' ' :: more).head?, isBlank ch = false := by
    obtain ⟨first, others, nonempty⟩ := List.exists_cons_of_ne_nil h
    have noBlank := head?_rest_skipWhile isBlank c
    rw [nonempty] at noBlank ⊢
    exact noBlank
  rw [scan, (run_append_skipWhile stop).2, scanLexeme_append_blank h, scan]

/-! ### All tokens -/

section

variable {c next last : Cursor} {found : Lexeme} {lexemes : List Lexeme} {e : LexicalError}

/-- Behind the blanks there is something to read, unless it is the end of the text that was read. -/
theorem rest_skipWhile_ne_nil {result : Scanned} (h : c.scan = (result, next))
    (inner : ∀ found, result = .ok found → found.token ≠ .endOfInput) : (c.skipWhile isBlank).rest ≠ [] := by
  intro nothing
  rw [scan, scanLexeme, nothing] at h
  exact inner _ (congrArg Prod.fst h).symm rfl

theorem Munches.shift (h : c.Munches lexemes last) (columns : Nat) :
    (c.shift columns).Munches (lexemes.map (Lexeme.shift columns)) (last.shift columns) := by
  induction lexemes generalizing c with
  | nil =>
    cases h
    exact .nil _
  | cons found lexemes ih =>
    obtain ⟨next, hs, ht, others⟩ := munches_cons_iff.mp h
    exact munches_cons_iff.mpr ⟨next.shift columns, by rw [scan_shift, hs]; rfl, ht, ih others⟩

theorem Munches.append_blank (h : c.Munches lexemes last) (more : List Char) :
    (c.append (' ' :: more)).Munches lexemes (last.append (' ' :: more)) := by
  induction lexemes generalizing c with
  | nil =>
    cases h
    exact .nil _
  | cons found lexemes ih =>
    obtain ⟨next, hs, ht, others⟩ := munches_cons_iff.mp h
    have inner := rest_skipWhile_ne_nil hs (by rintro _ ⟨⟩; exact ht)
    refine munches_cons_iff.mpr ⟨next.append (' ' :: more), ?_, ht, ih others⟩
    rw [scan_append_blank inner, hs]
    rfl

/-- Lexemes fill as many columns as characters were taken for them. -/
theorem Munches.column_add_length (h : c.Munches lexemes last) :
    last.column + last.rest.length = c.column + c.rest.length := by
  induction h with
  | nil c => rfl
  | cons separate written stop others ih =>
    simp only [ih, List.length_append]
    omega

theorem tokens_shift (columns : Nat) (c : Cursor) : (c.shift columns).tokens =
    match c.tokens with
    | .ok lexemes => .ok (lexemes.map (Lexeme.shift columns))
    | .error e => .error (e.shift columns) := by
  obtain ⟨lexemes, last, munched, blanks | ⟨e, next, failed⟩⟩ := c.exists_munches
  · rw [munched.tokens_eq_ok blanks, (munched.shift columns).tokens_eq_ok blanks]
  · have there : (last.shift columns).scan = (.error (e.shift columns), next.shift columns) := by
      rw [scan_shift, failed]
      rfl
    rw [munched.tokens_eq_error failed, (munched.shift columns).tokens_eq_error there]

theorem scan_of_blanks_append {blanks : List Char} (separate : ∀ ch ∈ blanks, ch = ' ')
    (rest : List Char) (column : Nat) :
    scan ⟨blanks ++ rest, column⟩ = scan ⟨rest, column + blanks.length⟩ := by
  have all := forall_isBlank_iff.mpr separate
  have skip : skipWhile isBlank ⟨blanks ++ rest, column⟩ =
      skipWhile isBlank ⟨rest, column + blanks.length⟩ := by
    simp only [skipWhile, run, List.takeWhile_append_of_pos all, List.dropWhile_append_of_pos all,
      List.length_append, Nat.add_assoc]
  rw [scan, skip, scan]

/-- Blanks in front are as good as none. -/
theorem tokens_of_blanks_append {blanks : List Char} (separate : ∀ ch ∈ blanks, ch = ' ')
    (rest : List Char) (column : Nat) :
    tokens ⟨blanks ++ rest, column⟩ = tokens ⟨rest, column + blanks.length⟩ := by
  rw [tokens_eq, tokens_eq, scanToken?, scanToken?, scan_of_blanks_append separate]

end

end Cursor

/-- A text and another one behind a blank: an error in the first one is the error of both.  Otherwise
there are the tokens of the first one and, as many columns further to the right as the first one and the
blank fill, the tokens of the second one or its error. -/
theorem tokenize_append_space (a b : String) : tokenize (a ++ " " ++ b) =
    match tokenize a with
    | .error e => .error e
    | .ok front =>
      match tokenize b with
      | .ok back => .ok (front ++ back.map (Lexeme.shift (a.length + 1)))
      | .error e => .error (e.shift (a.length + 1)) := by
  have start : Cursor.ofString (a ++ " " ++ b) = (Cursor.ofString a).append (' ' :: b.toList) := by
    simp [Cursor.ofString, Cursor.append, List.append_assoc]
  obtain ⟨lexemes, last, munched, blanks | ⟨e, next, failed⟩⟩ := (Cursor.ofString a).exists_munches
  · have first : tokenize a = .ok lexemes := munched.tokens_eq_ok blanks
    -- of the first text there are blanks left, and one more stands before the second text
    have behind : (last.append (' ' :: b.toList)).tokens =
        ((Cursor.ofString b).shift (a.length + 1)).tokens := by
      have separate : ∀ ch ∈ last.rest ++ [' '], ch = ' ' := by simpa [or_imp, forall_and] using blanks
      have width : last.column + (last.rest ++ [' ']).length = 0 + (a.length + 1) := by
        have length := munched.column_add_length
        simp only [Cursor.ofString, String.length_toList, Nat.zero_add, List.length_append,
          List.length_singleton] at length ⊢
        omega
      have whole := Cursor.tokens_of_blanks_append separate b.toList last.column
      rw [width, List.append_assoc] at whole
      exact whole
    rw [tokenize, start, (munched.append_blank b.toList).tokens_eq, behind, Cursor.tokens_shift, first]
    simp only [tokenize]
    cases (Cursor.ofString b).tokens <;> rfl
  · have wrong : tokenize a = .error e := munched.tokens_eq_error failed
    have inner := Cursor.rest_skipWhile_ne_nil failed (by rintro _ ⟨⟩)
    have there : (last.append (' ' :: b.toList)).scan = (.error e, next.append (' ' :: b.toList)) := by
      rw [Cursor.scan_append_blank inner, failed]
      rfl
    rw [tokenize, start, (munched.append_blank b.toList).tokens_eq_error there, wrong]

end LetArith
