import LetArith.Failure
import LetArith.Proofs.Stopping

/-!
# LetArith.Proofs.Location — where errors are, and what stands there

An error names a character, a number, a word or a token, and its columns are those of the text that it
names.  Before them there are blanks and lexemes only, hence nothing that is wider than one byte or one
column.

* `Cursor.Munches.follows`: what was read of a text is plain, and as long as the column says.
* `Cursor.holds_of_scan`: the columns of a token hold that token.
* `Cursor.locates_of_at`: the columns of a lexical error hold what the error names.
* `failure_locations`: so every failure points at what it names, and the report shows it there.
-/

namespace LetArith

open Grammar

/-! ### Columns -/

/-- A character that blanks and lexemes are made of. -/
def isPlain (c : Char) : Bool :=
  c == ' ' || c.isDigit || c.isLower || c == '(' || c == ')' || c == ',' || c == '-'

/-- Plain characters fill one byte. -/
theorem utf8Size_of_isPlain {c : Char} (h : isPlain c = true) : c.utf8Size = 1 := by
  have range : c.val ≤ 127 := by
    simp only [isPlain, Bool.or_eq_true, beq_iff_eq] at h
    rcases h with (((((rfl | digit) | lower) | rfl) | rfl) | rfl) | rfl
    · decide
    · have bound : (decide (c.val ≥ 48) && decide (c.val ≤ 57)) = true := digit
      simp only [Bool.and_eq_true, decide_eq_true_eq, UInt32.le_iff_toNat_le, UInt32.reduceToNat] at bound ⊢
      omega
    · have bound : (decide (c.val ≥ 97) && decide (c.val ≤ 122)) = true := lower
      simp only [Bool.and_eq_true, decide_eq_true_eq, UInt32.le_iff_toNat_le, UInt32.reduceToNat] at bound ⊢
      omega
    all_goals decide
  exact Char.utf8Size_eq_one_iff.mpr range

theorem utf8ByteSize_of_isPlain {chars : List Char} (h : ∀ c ∈ chars, isPlain c = true) :
    (String.ofList chars).utf8ByteSize = chars.length := by
  induction chars with
  | nil => rfl
  | cons c chars ih =>
    obtain ⟨first, others⟩ := List.forall_mem_cons.mp h
    rw [String.ofList_cons, String.utf8ByteSize_append, String.utf8ByteSize_singleton,
      utf8Size_of_isPlain first, ih others, List.length_cons, Nat.add_comm]

theorem isPlain_of_continuesWord {c : Char} (h : continuesWord c = true) : isPlain c = true := by
  simp only [continuesWord, Bool.or_eq_true] at h
  rcases h with lower | digit
  · simp [isPlain, lower]
  · simp [isPlain, digit]

theorem isPlain_of_isDigit {c : Char} (h : c.isDigit = true) : isPlain c = true := by
  simp [isPlain, h]

/-- Lexemes are made of plain characters. -/
theorem Token.Spells.isPlain {token : Token} {chars : List Char} (h : token.Spells chars) :
    ∀ c ∈ chars, isPlain c = true := by
  cases h with
  | punctuation sign =>
    rcases eq_of_punctuation? sign with ⟨rfl, -⟩ | ⟨rfl, -⟩ | ⟨rfl, -⟩ <;>
      exact List.forall_mem_singleton.mpr rfl
  | word name =>
    obtain ⟨first, others, chars, lower, tail⟩ := name
    rw [chars]
    refine List.forall_mem_cons.mpr ⟨?_, fun c hc => isPlain_of_continuesWord (tail c hc)⟩
    exact isPlain_of_continuesWord (continuesWord_of_startsWord lower)
  | @integer negative digits value nonempty all fits =>
    have plain : ∀ c ∈ digits, LetArith.isPlain c = true := fun c hc => isPlain_of_isDigit (all c hc)
    cases negative with
    | true => simpa [literalText, LetArith.isPlain] using plain
    | false => simpa [literalText] using plain

namespace Span

/-- The characters of a text in the columns of the span. -/
def slice (s : Span) (text : String) : List Char := (text.toList.take s.stop).drop s.start

theorem slice_of_append {text : String} {before chars behind : List Char} {column : Nat}
    (split : text.toList = before ++ (chars ++ behind)) (start : before.length = column) :
    slice ⟨column, column + chars.length⟩ text = chars := by
  subst start
  have whole : text.toList = (before ++ chars) ++ behind := by rw [split, List.append_assoc]
  rw [slice, whole, List.take_left' (by simp), List.drop_left]

/-- The span is in the text, and only plain characters stand before it. -/
structure Fits (s : Span) (text : String) : Prop where
  start_le : s.start ≤ s.stop
  stop_le : s.stop ≤ text.length
  plain : ∀ c ∈ text.toList.take s.start, isPlain c = true

theorem fits_of_append {text : String} {before chars behind : List Char} {column : Nat}
    (split : text.toList = before ++ (chars ++ behind)) (start : before.length = column)
    (plain : ∀ c ∈ before, isPlain c = true) : Fits ⟨column, column + chars.length⟩ text := by
  subst start
  have total : text.length = before.length + (chars.length + behind.length) := by
    rw [← String.length_toList, split, List.length_append, List.length_append]
  refine ⟨Nat.le_add_right _ _, ?_, ?_⟩
  · show before.length + chars.length ≤ text.length
    omega
  · show ∀ c ∈ text.toList.take before.length, isPlain c = true
    rw [split, List.take_left]
    exact plain

/-- Before the span there are as many bytes as columns. -/
theorem Fits.utf8ByteSize {s : Span} {text : String} (h : s.Fits text) :
    (String.ofList (text.toList.take s.start)).utf8ByteSize = s.start := by
  have inside : s.start ≤ text.toList.length := by
    rw [String.length_toList]
    exact Nat.le_trans h.start_le h.stop_le
  rw [utf8ByteSize_of_isPlain h.plain, List.length_take, Nat.min_eq_left inside]

end Span

/-! ### What stands there -/

/-- The columns of the lexeme hold its token: by themselves they are read as this token.  The end of the
text has no columns, and stands behind all of them. -/
def Lexeme.Stands (text : String) (found : Lexeme) : Prop :=
  if found.token = .endOfInput then found.span = ⟨text.length, text.length⟩
  else tokenize (String.ofList (found.span.slice text)) = .ok [⟨found.token, ⟨0, found.span.length⟩⟩]

/-- The columns of the error hold what it names: the character, the number with all its digits, or a
minus sign. -/
def LexicalError.Stands (text : String) : LexicalError → Prop
  | .invalidCharacter found span => span.slice text = [found]
  | .integerOverflow literal span => span.slice text = literal.toList ∧
      (∃ negative digits, literal = literalText negative digits ∧ digits ≠ [] ∧
        (∀ c ∈ digits, c.isDigit = true) ∧
        (signedValue negative digits < -2147483648 ∨ 2147483647 < signedValue negative digits)) ∧
      ∀ c ∈ text.toList[span.stop]?, c.isDigit = false
  | .missingDigits span => span.slice text = ['-']

/-- The columns of the error hold what it names: a token, or a word. -/
def ParseError.Stands (text : String) : ParseError → Prop
  | .lexical e => e.Stands text
  | .unexpectedToken _ found => found.Stands text
  | .missingExpression found => found.Stands text
  | .invalidOperand found => found.Stands text
  | .unknownOperation name span => span.slice text = name.toList
  | .unboundVariable name span => span.slice text = name.toList
  | .reservedName name span => span.slice text = name.toList
  | .redeclaration name span => span.slice text = name.toList
  | .tooDeep span => ∃ name, Token.IsName name ∧ span.slice text = name.toList

namespace Cursor

variable {text : String} {c next last : Cursor} {found : Lexeme} {lexemes : List Lexeme} {e : LexicalError}

/-- The cursor is in the text, behind plain characters only. -/
def Follows (c : Cursor) (text : String) : Prop :=
  ∃ before, text.toList = before ++ c.rest ∧ before.length = c.column ∧ ∀ ch ∈ before, isPlain ch = true

theorem follows_ofString (text : String) : (ofString text).Follows text :=
  ⟨[], rfl, rfl, List.forall_mem_nil _⟩

theorem Follows.skip {chars rest : List Char} {column : Nat} (h : Follows ⟨chars ++ rest, column⟩ text)
    (plain : ∀ ch ∈ chars, isPlain ch = true) : Follows ⟨rest, column + chars.length⟩ text := by
  obtain ⟨before, split, start, early⟩ := h
  refine ⟨before ++ chars, by rw [split, List.append_assoc], ?_, List.forall_mem_append.mpr ⟨early, plain⟩⟩
  rw [List.length_append, start]

theorem isPlain_of_blank {blanks : List Char} (separate : ∀ ch ∈ blanks, ch = ' ') :
    ∀ ch ∈ blanks, isPlain ch = true := by
  intro ch hm
  rw [separate ch hm]
  rfl

theorem Munches.follows (h : c.Munches lexemes last) (hc : c.Follows text) : last.Follows text := by
  induction h with
  | nil c => exact hc
  | cons separate written stop others ih =>
    have behindBlanks := hc.skip (isPlain_of_blank separate)
    exact ih (behindBlanks.skip (Token.writtenAs_iff_spells.mp written).isPlain)

theorem Follows.skipBlanks (h : c.Follows text) : (c.skipWhile isBlank).Follows text := by
  have plain := isPlain_of_blank (forall_isBlank_iff.mp (forall_mem_run isBlank c))
  have split : Follows ⟨c.run isBlank ++ (c.skipWhile isBlank).rest, c.column⟩ text := by
    rw [run_append_rest_skipWhile]
    exact h
  exact split.skip plain

/-- A token that is read stands in its columns. -/
theorem holds_of_scan (h : c.scan = (.ok found, next)) (hc : c.Follows text) :
    found.span.Fits text ∧ found.Stands text ∧
      ∀ name, found.token = .word name → Token.IsName name ∧ found.span.slice text = name.toList := by
  obtain ⟨before, split, start, plain⟩ := hc.skipBlanks
  rcases spells_of_scanLexeme h with ⟨nothing, rfl, -⟩ | ⟨chars, spells, stop, hr, span, column⟩
  · rw [nothing, List.append_nil] at split
    have total : text.length = (c.skipWhile isBlank).column := by rw [← String.length_toList, split, start]
    refine ⟨⟨Nat.le_refl _, Nat.le_of_eq total.symm, fun ch hm => ?_⟩, ?_, fun name ht => ?_⟩
    · exact plain ch (split ▸ List.mem_of_mem_take hm)
    · rw [Lexeme.Stands, if_pos rfl, total]
    · cases ht
  · rw [hr] at split
    rw [column] at span
    have slice : found.span.slice text = chars := by rw [span, Span.slice_of_append split start]
    refine ⟨span ▸ Span.fits_of_append split start plain, ?_, fun name ht => ⟨isName_of_scan h ht, ?_⟩⟩
    · -- its characters alone are read as the same token, now from the first column on
      have length : found.span.length = chars.length := by simp [span, Span.length]
      have ends : found.token.EndsBefore [] := by simp [Token.EndsBefore]
      have alone := scan_of_spells (List.forall_mem_nil _) spells ends 0
      have nothing :=
        tokens_eq_ok_nil_iff.mpr ⟨_, _, scan_of_blanks (List.forall_mem_nil _) chars.length, rfl⟩
      rw [Lexeme.Stands, if_neg spells.ne_endOfInput, slice, length, tokenize, ofString, String.toList_ofList]
      refine tokens_eq_ok_cons_iff.mpr ⟨⟨[], chars.length⟩, ?_, spells.ne_endOfInput, nothing⟩
      simpa using alone
    · rw [ht] at spells
      cases spells with
      | punctuation sign => rcases eq_of_punctuation? sign with ⟨-, h⟩ | ⟨-, h⟩ | ⟨-, h⟩ <;> cases h
      | word name => exact slice

/-- What a lexical error names stands in its columns. -/
theorem locates_of_at (h : LexicalError.At c.column c.rest e) (hc : c.Follows text) :
    e.span.Fits text ∧ e.Stands text := by
  obtain ⟨rest, column⟩ := c
  obtain ⟨before, split, start, plain⟩ := hc
  dsimp only at h split start
  cases h with
  | @integerOverflow negative digits behind nonempty all stop large =>
    have slice := Span.slice_of_append split start
    refine ⟨Span.fits_of_append split start plain, slice, ⟨negative, digits, rfl, nonempty, all, large⟩, ?_⟩
    -- the character in the column behind the number is the first one that was left
    intro ch hm
    have whole : text.toList = (before ++ (literalText negative digits).toList) ++ behind := by
      rw [split, List.append_assoc]
    have width : (before ++ (literalText negative digits).toList).length =
        column + (literalText negative digits).toList.length := by rw [List.length_append, start]
    refine stop ch ?_
    rw [whole, ← width, List.getElem?_append_right (Nat.le_refl _), Nat.sub_self] at hm
    rwa [List.head?_eq_getElem?]
  | @missingDigits behind stop =>
    have single : text.toList = before ++ (['-'] ++ behind) := split
    exact ⟨Span.fits_of_append single start plain, Span.slice_of_append single start⟩
  | @invalidCharacter found behind noSign noDigit =>
    have single : text.toList = before ++ ([found] ++ behind) := split
    exact ⟨Span.fits_of_append single start plain, Span.slice_of_append single start⟩

end Cursor

/-! ### Errors -/

/-- An error that names a word is about a word. -/
theorem Grammar.Slot.HasFault.names {limit : Option Nat} {slot : Slot} {found : Token} {fault : Fault}
    (h : slot.HasFault limit found fault) :
    (∃ text, found = .word text) ∨ (∃ expected, fault = .unexpectedToken expected) ∨
      fault = .missingExpression ∨ fault = .invalidOperand := by
  have expression {level : Nat} (first : Slot.ExpressionFault limit level found fault) :
      (∃ text, found = .word text) ∨ ∃ expected, fault = .unexpectedToken expected := by
    cases first with
    | noWord noWord => exact .inr ⟨_, rfl⟩
    | unknownOperation within free => exact .inl ⟨_, rfl⟩
    | tooDeep text bounded deep => exact .inl ⟨_, rfl⟩
  cases h with
  | noProgram noWord => exact .inr (.inr (.inl rfl))
  | program first => exact .inl ⟨_, rfl⟩
  | expression first => exact (expression first).imp_right .inl
  | operand first => exact .inl ⟨_, rfl⟩
  | noOperand noWord noInteger => exact .inr (.inr (.inr rfl))
  | unboundVariable free unknown => exact .inl ⟨_, rfl⟩
  | noName noWord => exact .inr (.inl ⟨_, rfl⟩)
  | reservedName scope keyword => exact .inl ⟨_, rfl⟩
  | redeclaration free visible => exact .inl ⟨_, rfl⟩
  | noSign other => exact .inr (.inl ⟨_, rfl⟩)

/-- A lexical error stands behind blanks and lexemes. -/
theorem LexicalError.stands_of_tokenize {text : String} {e : LexicalError}
    (h : tokenize text = .error e) : e.span.Fits text ∧ e.Stands text := by
  obtain ⟨lexemes, last, next, munched, failed⟩ := Cursor.tokens_eq_error_iff_munches.mp h
  obtain ⟨blanks, rest, split, separate, -, wrong⟩ := Cursor.exists_at_of_scan failed
  have follows : Cursor.Follows ⟨blanks ++ rest, last.column⟩ text := by
    rw [← split]
    exact munched.follows (Cursor.follows_ofString text)
  exact Cursor.locates_of_at wrong (follows.skip (Cursor.isPlain_of_blank separate))

namespace Expr

variable {text : String} {err : ParseError}

/-- A fault stands where its token does. -/
theorem StopsAt.stands {front : List Lexeme} {found : Lexeme} {fault : Fault}
    (h : StopsAt text front found fault) :
    (fault.about found).span.Fits text ∧ (fault.about found).Stands text := by
  cases h with
  | intro munched scanned awaits wrong ready =>
    obtain ⟨fits, stands, named⟩ :=
      Cursor.holds_of_scan scanned (munched.follows (Cursor.follows_ofString text))
    rw [Fault.span_about]
    refine ⟨fits, ?_⟩
    rcases (Slot.fault?_eq_some_iff.mp wrong).names with ⟨name, ht⟩ | ⟨expected, rfl⟩ | rfl | rfl
    · obtain ⟨isName, slice⟩ := named name ht
      cases fault with
      | unexpectedToken expected => exact stands
      | missingExpression => exact stands
      | invalidOperand => exact stands
      | tooDeep => exact ⟨name, isName, slice⟩
      | unknownOperation | unboundVariable | reservedName | redeclaration =>
        show found.span.slice text = found.token.text.toList
        rw [slice, ht, Token.text]
    all_goals exact stands

/-- What an error names stands in its columns. -/
theorem stands_of_parse (h : parse text = .error err) : err.span.Fits text ∧ err.Stands text := by
  rcases exists_stopsAt_of_parse h with ⟨e, failed, rfl⟩ | ⟨front, found, fault, stopped, rfl⟩
  · exact LexicalError.stands_of_tokenize failed
  · exact stopped.stands

end Expr

/-! ### Failures -/

section

variable {text : String} {failure : Failure}

theorem calculate_eq_error_iff : calculate text = .error failure ↔
    (∃ err, failure = .parse err ∧ Expr.parse text = .error err) ∨
      ∃ e err, failure = .arithmetic err ∧ Expr.parse text = .ok e ∧ e.evaluate = .error err := by
  unfold calculate
  cases hp : Expr.parse text with
  | error err => simp [eq_comm]
  | ok e =>
    cases he : e.evaluate with
    | error err => simp [he, eq_comm]
    | ok value => simp [he]

theorem Failure.span?_eq_none_iff : failure.span? = none ↔ failure.kind = .arithmetic := by
  cases failure with
  | arithmetic err => simp [span?, kind]
  | parse err => cases err <;> simp [span?, kind]

theorem Failure.report_of_span? {span : Span} (h : failure.span? = some span) (source : String) :
    failure.report source = failure.kind.text ++ ":" ++ span.text ++ ": " ++ failure.message ++
      "\n     | \n   1 | " ++ source ++ "\n     | " ++ caretLine span ++ "\n" := by
  rw [report, h]

end

/-- An error in a text is in the columns of its span, with one byte for each column before it, and what
stands there is what the error names.  The report shows the column, counted from 1, and marks all
columns of the span, or the one behind the text.  Only arithmetic has no columns, and it fails only in a
text that was read. -/
theorem failure_locations (text : String) :
    (∀ failure span, calculate text = .error failure → failure.span? = some span →
      span.Fits text ∧ (String.ofList (text.toList.take span.start)).utf8ByteSize = span.start ∧
      (∃ err, failure = .parse err ∧ err.span = span ∧ err.Stands text) ∧
      failure.report text =
        failure.kind.text ++ ":" ++ ("1:" ++ toString (span.start + 1)) ++ ": " ++ failure.message ++
        "\n     | \n   1 | " ++ text ++ "\n     | " ++
        String.ofList
          (List.replicate span.start ' ' ++ List.replicate (max (span.stop - span.start) 1) '^') ++ "\n" ∧
      span.start + max (span.stop - span.start) 1 ≤ text.length + 1) ∧
    (∀ failure, calculate text = .error failure → (failure.span? = none ↔ failure.kind = .arithmetic)) ∧
    ((∃ failure, calculate text = .error failure ∧ failure.kind = .arithmetic) ↔
      ∃ e err, Expr.parse text = .ok e ∧ e.evaluate = .error err) := by
  refine ⟨fun failure span h columns => ?_, fun failure h => Failure.span?_eq_none_iff, ?_, ?_⟩
  · rcases calculate_eq_error_iff.mp h with ⟨err, rfl, refused⟩ | ⟨e, err, rfl, -⟩
    · obtain rfl : err.span = span := Option.some.inj columns
      obtain ⟨fits, stands⟩ := Expr.stands_of_parse refused
      refine ⟨fits, fits.utf8ByteSize, ⟨err, rfl, rfl, stands⟩, Failure.report_of_span? columns text, ?_⟩
      have start_le := fits.start_le
      have stop_le := fits.stop_le
      omega
    · cases columns
  · rintro ⟨failure, h, kind⟩
    rcases calculate_eq_error_iff.mp h with ⟨err, rfl, -⟩ | ⟨e, err, rfl, read, failed⟩
    · cases err <;> cases kind
    · exact ⟨e, err, read, failed⟩
  · rintro ⟨e, err, read, failed⟩
    exact ⟨.arithmetic err, calculate_eq_error_iff.mpr (.inr ⟨e, err, rfl, read, failed⟩), rfl⟩

/-- A name that is not visible is marked where it is written. -/
theorem failure_locations_unbound :
    calculate "let(a,1,add(a, b1))" = .error (.parse (.unboundVariable "b1" ⟨15, 17⟩)) ∧
      Span.slice ⟨15, 17⟩ "let(a,1,add(a, b1))" = ['b', '1'] ∧
      (Failure.parse (.unboundVariable "b1" ⟨15, 17⟩)).report "let(a,1,add(a, b1))" =
        "parse:1:16: error parsing operand: 'b1' is not a declared variable\n     | \n" ++
          "   1 | let(a,1,add(a, b1))\n     |                ^^\n" := by
  have refused : Expr.parse "let(a,1,add(a, b1))" = .error (.unboundVariable "b1" ⟨15, 17⟩) := by
    decide +kernel
  have failed := calculate_eq_error_iff.mpr (.inl ⟨_, rfl, refused⟩)
  obtain ⟨-, -, ⟨err, same, -, stands⟩, report, -⟩ :=
    (failure_locations "let(a,1,add(a, b1))").1 _ _ failed rfl
  obtain rfl := Failure.parse.inj same
  exact ⟨failed, stands, report.trans (by decide)⟩

end LetArith
