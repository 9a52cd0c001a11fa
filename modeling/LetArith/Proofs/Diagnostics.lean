import LetArith.Proofs.FirstError
import LetArith.Proofs.Location
import LetArith.Proofs.Printing

/-!
# LetArith.Proofs.Diagnostics — messages are safe to show

Whatever is typed, a message about it is one line of printable ASCII.  What a message quotes is a token
or a name, which is plain by itself, the digits of a number, or a character that is escaped.  The report
has the message in its first line, and of what was typed just the source line.

* `Text.escape_injective`: the escape of a character tells the character.
* `Failure.safe_of_message`: a failure with a printable message has a printable first line, and so many
  lines below.
* `diagnostics_are_printable`: so the message of every failure is printable.
-/

namespace LetArith

open Grammar

namespace Text

/-! ### Printable characters -/

/-- A printable character of ASCII, the blank included. -/
def isPrintable (c : Char) : Bool := 0x20 ≤ c.toNat && c.toNat ≤ 0x7e

/-- There are only printable characters of ASCII in the text, hence no line breaks. -/
def Printable (s : String) : Prop := ∀ c ∈ s.toList, isPrintable c = true

instance (s : String) : Decidable (Printable s) := List.decidableBAll (fun c => isPrintable c = true) s.toList

/-- The text up to its first line break. -/
def firstLine (s : String) : String := String.ofList (s.toList.takeWhile (· != '\n'))

/-- The number of line breaks in the text. -/
def lineBreaks (s : String) : Nat := s.toList.count '\n'

variable {s t : String} {c : Char}

@[simp] theorem printable_append : Printable (s ++ t) ↔ Printable s ∧ Printable t := by
  simp [Printable, or_imp, forall_and]

@[simp] theorem lineBreaks_append : lineBreaks (s ++ t) = lineBreaks s + lineBreaks t := by
  simp [lineBreaks]

theorem Printable.lineBreaks_eq_zero (h : Printable s) : lineBreaks s = 0 := by
  refine List.count_eq_zero.mpr fun hm => ?_
  exact absurd (h _ hm) (by decide)

/-- A printable text with a line break behind it is the first line. -/
theorem Printable.firstLine_eq (h : Printable s) (rest : String) : firstLine (s ++ ("\n" ++ rest)) = s := by
  have inside : ∀ c ∈ s.toList, (c != '\n') = true := by
    intro c hm
    refine bne_iff_ne.mpr ?_
    rintro rfl
    exact absurd (h _ hm) (by decide)
  rw [firstLine, String.toList_append, List.takeWhile_append_of_pos inside, String.toList_append]
  simp

/-- A range of characters that are printable. -/
theorem isPrintable_of_range {low high : UInt32} (above : 0x20 ≤ low.toNat) (below : high.toNat ≤ 0x7e)
    (h : (decide (c.val ≥ low) && decide (c.val ≤ high)) = true) : isPrintable c = true := by
  simp only [Bool.and_eq_true, decide_eq_true_eq, ge_iff_le, UInt32.le_iff_toNat_le] at h
  simp only [isPrintable, Char.toNat, Bool.and_eq_true, decide_eq_true_eq]
  omega

theorem isPrintable_of_isPlain (h : isPlain c = true) : isPrintable c = true := by
  simp only [isPlain, Bool.or_eq_true, beq_iff_eq] at h
  rcases h with (((((rfl | digit) | lower) | rfl) | rfl) | rfl) | rfl
  · decide
  · exact isPrintable_of_range (by decide) (by decide) digit
  · exact isPrintable_of_range (by decide) (by decide) lower
  all_goals decide

theorem printable_ofList {chars : List Char} (h : ∀ c ∈ chars, isPlain c = true) :
    Printable (String.ofList chars) := by
  intro c hm
  rw [String.toList_ofList] at hm
  exact isPrintable_of_isPlain (h c hm)

/-! ### Escapes -/

theorem isPrintable_digitChar {n : Nat} (h : n < 16) : isPrintable n.digitChar = true := by
  revert n
  decide

theorem digitChar_injective :
    ∀ {m : Nat}, m < 16 → ∀ {n : Nat}, n < 16 → m.digitChar = n.digitChar → m = n := by
  decide

theorem isPrintable_of_mem_toDigits (n : Nat) : ∀ c ∈ Nat.toDigits 16 n, isPrintable c = true := by
  induction n using Nat.strong_induction_on with
  | _ n ih =>
    by_cases small : n < 16
    · rw [Nat.toDigits_of_lt_base small]
      exact List.forall_mem_singleton.mpr (isPrintable_digitChar small)
    · have large : 16 ≤ n := Nat.le_of_not_lt small
      rw [Nat.toDigits_of_base_le (by decide) large]
      have last : isPrintable (n % 16).digitChar = true := isPrintable_digitChar (Nat.mod_lt n (by decide))
      exact List.forall_mem_append.mpr ⟨ih (n / 16) (by omega), List.forall_mem_singleton.mpr last⟩

/-- A number is known by its digits. -/
theorem toDigits_injective {m n : Nat} (h : Nat.toDigits 16 m = Nat.toDigits 16 n) : m = n := by
  induction m using Nat.strong_induction_on generalizing n with
  | _ m ih =>
    -- a number below 16 has one digit, and every other number has more
    have several (k : Nat) (large : 16 ≤ k) : 1 < (Nat.toDigits 16 k).length := by
      have some := List.length_pos_of_ne_nil (Nat.toDigits_ne_nil : Nat.toDigits 16 (k / 16) ≠ [])
      rw [Nat.toDigits_of_base_le (by decide) large, List.length_append, List.length_singleton]
      omega
    rcases Nat.lt_or_ge m 16 with small | large <;> rcases Nat.lt_or_ge n 16 with small' | large'
    · rw [Nat.toDigits_of_lt_base small, Nat.toDigits_of_lt_base small'] at h
      exact digitChar_injective small small' (List.singleton_inj.mp h)
    · have more := several n large'
      rw [← h, Nat.toDigits_of_lt_base small] at more
      exact absurd more (by simp)
    · have more := several m large
      rw [h, Nat.toDigits_of_lt_base small'] at more
      exact absurd more (by simp)
    · rw [Nat.toDigits_of_base_le (by decide) large, Nat.toDigits_of_base_le (by decide) large'] at h
      obtain ⟨front, last⟩ := List.append_inj' h rfl
      have high := ih (m / 16) (by omega) front
      have low := digitChar_injective (Nat.mod_lt m (by decide)) (Nat.mod_lt n (by decide))
        (List.singleton_inj.mp last)
      omega

/-- The characters that are escaped by a letter or by themselves. -/
def escapeLetters : List (Char × Char) :=
  [('\t', 't'), ('\r', 'r'), ('\n', 'n'), ('\'', '\''), ('"', '"'), ('\\', '\\')]

/-- The three forms of an escape, which differ in their length. -/
theorem escape_cases (c : Char) : (∃ letter, (c, letter) ∈ escapeLetters ∧ escape c = ['\\', letter]) ∨
    isPrintable c = true ∧ escape c = [c] ∨ escape c = escapeNumber c ∧ 2 < (escapeNumber c).length := by
  unfold escape
  split
  case h_7 =>
    split
    · next range => exact .inr (.inl ⟨by simpa [isPrintable] using range, rfl⟩)
    · exact .inr (.inr ⟨rfl, by simp [escapeNumber]⟩)
  all_goals exact .inl ⟨_, by decide, rfl⟩

/-- An escape is printable. -/
theorem printable_escape (c : Char) : Printable (String.ofList (escape c)) := by
  intro d hm
  rw [String.toList_ofList] at hm
  obtain ⟨letter, known, same⟩ | ⟨plain, same⟩ | ⟨same, -⟩ := escape_cases c
  · rw [same] at hm
    have letters : escapeLetters.all (fun pair => isPrintable pair.2) = true := by decide
    have printable := List.all_eq_true.mp letters _ known
    rcases List.mem_pair.mp hm with rfl | rfl
    · decide
    · exact printable
  · rw [same] at hm
    rwa [List.mem_singleton.mp hm]
  · rw [same, escapeNumber, List.mem_append, List.mem_append] at hm
    rcases hm with (start | digit) | stop
    · exact List.all_eq_true.mp (by decide : ['\\', 'u', '\x7b'].all isPrintable = true) d start
    · exact isPrintable_of_mem_toDigits _ d digit
    · rw [List.mem_singleton.mp stop]
      decide

/-- A character is known by its escape. -/
theorem escape_injective {c d : Char} (h : escape c = escape d) : c = d := by
  -- escapes of different forms have different lengths, so that only the cases of one form are left
  obtain ⟨letter, known, same⟩ | ⟨-, same⟩ | ⟨same, long⟩ := escape_cases c <;>
    obtain ⟨letter', known', same'⟩ | ⟨-, same'⟩ | ⟨same', long'⟩ := escape_cases d <;>
    rw [same, same'] at h
  · obtain rfl : letter = letter' := by simpa using h
    have distinct : (escapeLetters.map Prod.snd).Nodup := by decide
    exact congrArg Prod.fst (List.inj_on_of_nodup_map distinct known known' rfl)
  · simp at h
  · simp [← h] at long'
  · simp at h
  · simpa using h
  · simp [← h] at long'
  · simp [h] at long
  · simp [h] at long
  · have digits : Nat.toDigits 16 c.toNat = Nat.toDigits 16 d.toNat := by simpa [escapeNumber] using h
    exact Char.toNat_inj.mp (toDigits_injective digits)

end Text

open Text

/-! ### What messages are made of -/

theorem Token.Spells.printable {token : Token} {text : String} (h : token.Spells text.toList) :
    Printable text :=
  fun c hm => isPrintable_of_isPlain (h.isPlain c hm)

theorem printable_toInt (value : Int32) : Printable (toString value.toInt) :=
  (Token.spells_integer value).printable

theorem printable_toString (n : Nat) : Printable (toString n) := by
  have digits : (toString n).toList = Nat.toDigits 10 n := Nat.toList_repr
  intro c hm
  rw [digits] at hm
  exact isPrintable_of_isPlain (isPlain_of_isDigit (Nat.isDigit_of_mem_toDigits (by decide) (by decide) hm))

theorem Span.printable_text (s : Span) : Printable s.text := by
  rw [Span.text, printable_append]
  exact ⟨by decide, printable_toString _⟩

theorem FailureKind.printable_text (kind : FailureKind) : Printable kind.text := by
  cases kind <;> decide

/-- A token that is read has printable text. -/
theorem Cursor.printable_of_scan {c next : Cursor} {found : Lexeme} (h : c.scan = (.ok found, next)) :
    Printable found.token.text := by
  cases ht : found.token with
  | integer value => exact printable_toInt value
  | word text =>
    have name := Cursor.isName_of_scan h ht
    exact (Token.Spells.word name).printable
  | openParen | closeParen | comma | endOfInput => simp only [Token.text]; decide

/-! ### Messages -/

theorem LexicalError.printable_message {text : String} {e : LexicalError} (h : tokenize text = .error e) :
    Printable e.message := by
  obtain ⟨-, stands⟩ := LexicalError.stands_of_tokenize h
  unfold LexicalError.message
  cases e with
  | invalidCharacter found span =>
    simp only [printable_append]
    exact ⟨⟨by decide +kernel, printable_escape found⟩, by decide +kernel⟩
  | integerOverflow literal span =>
    obtain ⟨-, ⟨negative, digits, rfl, -, all, -⟩, -⟩ := stands
    have literal : Printable (literalText negative digits) := by
      have plain : ∀ c ∈ digits, isPlain c = true := fun c hm => isPlain_of_isDigit (all c hm)
      refine printable_ofList ?_
      cases negative with
      | true => exact List.forall_mem_cons.mpr ⟨rfl, plain⟩
      | false => exact plain
    simp only [printable_append]
    exact ⟨⟨by decide +kernel, literal⟩, by decide +kernel⟩
  | missingDigits span =>
    dsimp only
    decide +kernel

/-- What was expected is printable. -/
theorem Grammar.Slot.HasFault.printable_expected {limit : Option Nat} {slot : Slot} {token : Token}
    {expected : String} (h : slot.HasFault limit token (.unexpectedToken expected)) : Printable expected := by
  have known := h.expected_mem
  simp only [List.mem_cons, List.not_mem_nil, or_false] at known
  rcases known with rfl | rfl | rfl | rfl | rfl | rfl <;> decide +kernel

theorem ParseError.printable_message {text : String} {err : ParseError} (h : Expr.parse text = .error err) :
    Printable err.message := by
  rcases Expr.exists_stopsAt_of_parse h with ⟨e, failed, rfl⟩ | ⟨front, found, fault, stopped, rfl⟩
  · exact LexicalError.printable_message failed
  · obtain ⟨munched, scanned, awaits, wrong, ready⟩ := stopped
    have token : Printable found.token.text := Cursor.printable_of_scan scanned
    have listing : Printable Keyword.listing := by decide +kernel
    unfold ParseError.message
    cases fault with
    | unexpectedToken expected =>
      have expected := (Slot.fault?_eq_some_iff.mp wrong).printable_expected
      simp only [Fault.about, printable_append]
      exact ⟨⟨⟨⟨by decide +kernel, expected⟩, by decide +kernel⟩, token⟩, by decide +kernel⟩
    | missingExpression =>
      simp only [Fault.about, printable_append]
      exact ⟨⟨⟨⟨by decide +kernel, listing⟩, by decide +kernel⟩, token⟩, by decide +kernel⟩
    | unknownOperation =>
      simp only [Fault.about, printable_append]
      exact ⟨⟨⟨by decide +kernel, token⟩, by decide +kernel⟩, listing⟩
    | invalidOperand | unboundVariable | reservedName | redeclaration =>
      simp only [Fault.about, printable_append]
      exact ⟨⟨by decide +kernel, token⟩, by decide +kernel⟩
    | tooDeep =>
      simp only [Fault.about, printable_append]
      exact ⟨⟨by decide +kernel, printable_toString maxDepth⟩, by decide +kernel⟩

theorem Operator.printable_applicationText (op : Operator) (lhs rhs : Int32) :
    Printable (op.applicationText lhs rhs) := by
  have word : Printable op.word := by cases op <;> decide
  simp only [Operator.applicationText, printable_append]
  exact ⟨⟨⟨⟨⟨word, by decide⟩, printable_toInt lhs⟩, by decide⟩, printable_toInt rhs⟩, by decide⟩

theorem ArithmeticError.printable_message (e : ArithmeticError) : Printable e.message := by
  unfold ArithmeticError.message
  cases e with
  | overflow op lhs rhs =>
    exact printable_append.mpr ⟨by decide +kernel, op.printable_applicationText lhs rhs⟩
  | divisionByZero lhs =>
    exact printable_append.mpr ⟨by decide +kernel, Operator.div.printable_applicationText lhs 0⟩

/-! ### Reports -/

namespace Failure

variable {f : Failure}

theorem printable_caretLine (s : Span) : Printable (caretLine s) := by
  intro c hm
  rw [caretLine, String.toList_ofList, List.mem_append] at hm
  rcases hm with blank | caret
  · rw [List.eq_of_mem_replicate blank]
    decide
  · rw [List.eq_of_mem_replicate caret]
    decide

/-- What the first line of a report says: the kind, the column if there is one, and the message. -/
def headline (f : Failure) : String :=
  match f.span? with
  | some span => f.kind.text ++ ":" ++ span.text ++ ": " ++ f.message
  | none => f.kind.text ++ ": " ++ f.message

/-- What stands below: the source line, and the marks for the columns. -/
def excerpt (f : Failure) (source : String) : String :=
  match f.span? with
  | some span => "     | \n   1 | " ++ source ++ "\n     | " ++ caretLine span ++ "\n"
  | none => ""

theorem report_eq_headline (f : Failure) (source : String) :
    f.report source = f.headline ++ ("\n" ++ f.excerpt source) := by
  rw [report, headline, excerpt]
  cases f.span? with
  | none => rfl
  | some span =>
    have start : "\n     | \n   1 | " = "\n" ++ "     | \n   1 | " := by decide +kernel
    simp only [start, String.append_assoc]

theorem printable_headline (h : Printable f.message) : Printable f.headline := by
  have kind := f.kind.printable_text
  rw [headline]
  cases f.span? with
  | none =>
    simp only [printable_append]
    exact ⟨⟨kind, by decide⟩, h⟩
  | some span =>
    simp only [printable_append]
    exact ⟨⟨⟨⟨kind, by decide⟩, span.printable_text⟩, by decide⟩, h⟩

theorem lineBreaks_excerpt (f : Failure) (source : String) :
    lineBreaks (f.excerpt source) = if f.span?.isSome then lineBreaks source + 3 else 0 := by
  rw [excerpt]
  cases f.span? with
  | none => rfl
  | some span =>
    simp only [lineBreaks_append, (printable_caretLine span).lineBreaks_eq_zero]
    have bar : lineBreaks "     | \n   1 | " = 1 := by decide +kernel
    have bar' : lineBreaks "\n     | " = 1 := by decide +kernel
    have last : lineBreaks "\n" = 1 := by decide
    rw [bar, bar', last]
    simp
    omega

/-- The message is printable, and the first line of a report says it and is printable as well.  With
columns at fault a report has four line breaks besides those of the source line, and otherwise just one.
-/
structure Safe (f : Failure) : Prop where
  message : Printable f.message
  headline : Printable f.headline
  firstLine : ∀ source, firstLine (f.report source) = f.headline
  lineBreaks : ∀ source, lineBreaks (f.report source) = if f.span?.isSome then lineBreaks source + 4 else 1

/-- A printable message is all that it takes. -/
theorem safe_of_message (h : Printable f.message) : f.Safe := by
  have headline := printable_headline h
  refine ⟨h, headline, fun source => ?_, fun source => ?_⟩
  · rw [report_eq_headline, headline.firstLine_eq]
  · have last : Text.lineBreaks "\n" = 1 := by decide
    rw [report_eq_headline, lineBreaks_append, lineBreaks_append, headline.lineBreaks_eq_zero, last,
      lineBreaks_excerpt]
    split <;> omega

end Failure

/-- Whatever the text, a failure to find its tokens, to read it or to compute it has a message of
printable ASCII, and so has the first line of a report.  Different characters that start no token have
different messages, wherever they are. -/
theorem diagnostics_are_printable :
    (∀ text e, tokenize text = .error e → (Failure.parse (.lexical e)).Safe) ∧
    (∀ text err, Expr.parse text = .error err → (Failure.parse err).Safe) ∧
    (∀ text failure, calculate text = .error failure → failure.Safe) ∧
    ∀ found found' span span', (LexicalError.invalidCharacter found span).message =
      (LexicalError.invalidCharacter found' span').message → found = found' := by
  refine ⟨fun text e h => ?_, fun text err h => ?_, fun text failure h => ?_,
    fun found found' span span' same => ?_⟩
  · exact Failure.safe_of_message (LexicalError.printable_message h)
  · exact Failure.safe_of_message (ParseError.printable_message h)
  · rcases calculate_eq_error_iff.mp h with ⟨err, rfl, refused⟩ | ⟨e, err, rfl, -⟩
    · exact Failure.safe_of_message (ParseError.printable_message refused)
    · exact Failure.safe_of_message err.printable_message
  · unfold LexicalError.message at same
    have escapes : escape found = escape found' := by simpa using congrArg String.toList same
    exact escape_injective escapes

/-- A line feed that is typed is in the source line, and nowhere else in the report.  A division by zero
is reported in one line. -/
theorem diagnostics_are_printable_lineFeed :
    calculate "add(\n" = .error (.parse (.lexical (.invalidCharacter '\n' ⟨4, 5⟩))) ∧
      Printable (LexicalError.invalidCharacter '\n' ⟨4, 5⟩).message ∧
      lineBreaks ((Failure.parse (.lexical (.invalidCharacter '\n' ⟨4, 5⟩))).report "add(\n") = 5 ∧
      lineBreaks ((Failure.arithmetic (.divisionByZero 1)).report "div(1,0)") = 1 ∧
      (LexicalError.invalidCharacter '\n' ⟨4, 5⟩).message ≠
      (LexicalError.invalidCharacter 'n' ⟨4, 5⟩).message := by
  obtain ⟨scanned, read, computed, distinct⟩ := diagnostics_are_printable
  have refused : Expr.parse "add(\n" = .error (.lexical (.invalidCharacter '\n' ⟨4, 5⟩)) := by decide +kernel
  have noTokens : tokenize "add(\n" = .error (.invalidCharacter '\n' ⟨4, 5⟩) := by decide +kernel
  have tree : Expr.parse "div(1,0)" = .ok (.binary .div (.integer 1) (.integer 0)) := by decide +kernel
  have noValue : calculate "div(1,0)" = .error (.arithmetic (.divisionByZero 1)) := by
    rw [calculate, tree]
    dsimp only
    rw [Expr.evaluate_eq_value]
    rfl
  refine ⟨calculate_eq_error_iff.mpr (.inl ⟨_, rfl, refused⟩), (scanned _ _ noTokens).message, ?_, ?_,
    fun same => ?_⟩
  · rw [(read _ _ refused).lineBreaks]
    decide +kernel
  · rw [(computed _ _ noValue).lineBreaks]
    rfl
  · exact absurd (distinct _ _ _ _ same) (by decide)

end LetArith
