import LetArith.Text.Cursor
import LetArith.Text.Escape
import LetArith.Token

/-!
# LetArith.Token.Scan — from text to tokens

Blanks are skipped, and no other character is.  A number or a word takes as many characters as it can.
A number is read whole before its value is looked at, so that a number out of range is reported with all
its digits.

* `Cursor.length_scanToken?_lt`: a token takes at least one character, which is why `Cursor.tokens`
  ends.
* `Cursor.tokens_eq`: the tokens at a cursor are the first one and those behind it.
* After an error the cursor says where to go on: behind the digits of a number out of range, behind a
  minus sign that no digit follows, and still in front of a character that starts no token.
-/

namespace LetArith

/-- Why no token could be read. -/
inductive LexicalError
  | invalidCharacter (found : Char) (span : Span)
  | integerOverflow (literal : String) (span : Span)
  | missingDigits (span : Span)
  deriving DecidableEq

namespace LexicalError

/-- The columns at fault. -/
def span : LexicalError → Span
  | .invalidCharacter _ span => span
  | .integerOverflow _ span => span
  | .missingDigits span => span

/-- What is wrong there. -/
def message : LexicalError → String
  | .invalidCharacter found _ =>
    "cannot match character '" ++ String.ofList (Text.escape found) ++ "' to a terminal"
  | .integerOverflow literal _ => "integer literal '" ++ literal ++ "' does not fit in 32 bits"
  | .missingDigits _ => "expected digits after '-'"

end LexicalError

/-- The only character that separates tokens and means nothing. -/
def isBlank (c : Char) : Bool := c == ' '

/-- A character that can start a word. -/
def startsWord (c : Char) : Bool := c.isLower

/-- A character that can go on with a word. -/
def continuesWord (c : Char) : Bool := c.isLower || c.isDigit

theorem continuesWord_of_startsWord {c : Char} (h : startsWord c = true) : continuesWord c = true := by
  simp only [startsWord] at h
  simp [continuesWord, h]

/-- The number as a 32-bit integer, if it is in range. -/
def int32? (n : Int) : Option Int32 :=
  if -2147483648 ≤ n ∧ n ≤ 2147483647 then some (Int32.ofInt n) else none

theorem int32?_eq_some_iff {n : Int} {v : Int32} : int32? n = some v ↔ v.toInt = n := by
  unfold int32?
  constructor
  · intro h
    split at h
    · next range =>
      obtain rfl := Option.some.inj h
      exact Int32.toInt_ofInt_of_le (by omega) (by omega)
    · cases h
  · rintro rfl
    have lower := Int32.le_toInt v
    have upper := Int32.toInt_lt v
    rw [if_pos (by omega), Int32.ofInt_toInt]

/-- The value of decimal digits, below zero if `negative`. -/
def literalValue (negative : Bool) (digits : List Char) : Int :=
  let magnitude : Int := Nat.ofDigitChars 10 digits 0
  if negative then -magnitude else magnitude

/-- A number as it is written. -/
def literalText (negative : Bool) (digits : List Char) : String :=
  String.ofList (if negative then '-' :: digits else digits)

namespace Cursor

/-- Reads the digits at the cursor as those of a number that starts in column `start`; its minus sign,
if it has one, stands before the cursor. -/
def scanInteger (c : Cursor) (start : Nat) (negative : Bool) : Except LexicalError Lexeme × Cursor :=
  let digits := c.run Char.isDigit
  let behind := c.skipWhile Char.isDigit
  let span : Span := ⟨start, behind.column⟩
  match int32? (literalValue negative digits) with
  | some value => (.ok ⟨.integer value, span⟩, behind)
  | none => (.error (.integerOverflow (literalText negative digits) span), behind)

/-- Reads the word at the cursor. -/
def scanWord (c : Cursor) : Except LexicalError Lexeme × Cursor :=
  let behind := c.skipWhile continuesWord
  (.ok ⟨.word (String.ofList (c.run continuesWord)), ⟨c.column, behind.column⟩⟩, behind)

/-- Reads the token at a cursor that stands in front of no blank. -/
def scanLexeme (c : Cursor) : Except LexicalError Lexeme × Cursor :=
  match c.rest with
  | [] => (.ok ⟨.endOfInput, ⟨c.column, c.column⟩⟩, c)
  | ch :: rest =>
    let here := Span.single c.column
    let next : Cursor := ⟨rest, c.column + 1⟩
    if ch.isDigit then c.scanInteger c.column false
    else if let some token := Token.punctuation? ch then (.ok ⟨token, here⟩, next)
    else if ch = '-' then
      if next.peek.isDigit then next.scanInteger c.column true else (.error (.missingDigits here), next)
    else if startsWord ch then c.scanWord
    -- the cursor stays in front of the character, where the next call finds it again
    else (.error (.invalidCharacter ch here), c)

/-- Reads the next token.  At the end of the text this is the end of the input, however often it is read. -/
def scan (c : Cursor) : Except LexicalError Lexeme × Cursor := (c.skipWhile isBlank).scanLexeme

/-- Reads the next token, or nothing at the end of the text. -/
def scanToken? (c : Cursor) : Option (Except LexicalError Lexeme) × Cursor :=
  match c.scan with
  | (.ok lexeme, next) => if lexeme.token = .endOfInput then (none, next) else (some (.ok lexeme), next)
  | (.error e, next) => (some (.error e), next)

/-! ### Progress -/

theorem length_skipWhile_lt {p : Char → Bool} {c : Cursor} {ch : Char} {rest : List Char}
    (h : c.rest = ch :: rest) (hp : p ch = true) : (c.skipWhile p).rest.length < c.rest.length := by
  have total := length_rest_skipWhile p c
  have first : c.run p = ch :: rest.takeWhile p := by simp [run, h, hp]
  rw [first, List.length_cons] at total
  omega

theorem length_skipWhile_le (p : Char → Bool) (c : Cursor) :
    (c.skipWhile p).rest.length ≤ c.rest.length := by
  have total := length_rest_skipWhile p c
  omega

theorem scanInteger_snd (c : Cursor) (start : Nat) (negative : Bool) :
    (c.scanInteger start negative).2 = c.skipWhile Char.isDigit := by
  unfold scanInteger
  dsimp only
  split <;> rfl

theorem length_scanLexeme_lt {c next : Cursor} {lexeme : Lexeme} (h : c.scanLexeme = (.ok lexeme, next))
    (ht : lexeme.token ≠ .endOfInput) : next.rest.length < c.rest.length := by
  unfold scanLexeme at h
  split at h
  · cases h
    exact absurd rfl ht
  · next ch rest hc =>
    dsimp only at h
    split at h
    · next digit =>
      obtain rfl : c.skipWhile Char.isDigit = next := by simpa [scanInteger_snd] using congrArg Prod.snd h
      exact length_skipWhile_lt hc digit
    · split at h
      · cases h
        simp [hc]
      · split at h
        · split at h
          · obtain rfl : Cursor.skipWhile Char.isDigit ⟨rest, c.column + 1⟩ = next := by
              simpa [scanInteger_snd] using congrArg Prod.snd h
            rw [hc]
            exact Nat.lt_succ_of_le (length_skipWhile_le _ ⟨rest, c.column + 1⟩)
          · cases h
        · split at h
          · next letter =>
            obtain rfl : c.skipWhile continuesWord = next := congrArg Prod.snd h
            exact length_skipWhile_lt hc (continuesWord_of_startsWord letter)
          · cases h

theorem length_scanToken?_lt {c next : Cursor} {lexeme : Lexeme}
    (h : c.scanToken? = (some (.ok lexeme), next)) :
    next.rest.length < c.rest.length := by
  unfold scanToken? at h
  split at h
  · next found behind hs =>
    split at h
    · cases h
    · next ht =>
      cases h
      exact Nat.lt_of_lt_of_le (length_scanLexeme_lt hs ht) (length_skipWhile_le _ _)
  · cases h

/-! ### All tokens -/

/-- The tokens at the cursor behind those read before, of which `before` has the last one first. -/
def tokensAfter (before : List Lexeme) (c : Cursor) : Except LexicalError (List Lexeme) :=
  match _read : c.scanToken? with
  | (none, _) => .ok before.reverse
  | (some (.error e), _) => .error e
  | (some (.ok lexeme), next) => next.tokensAfter (lexeme :: before)
termination_by c.rest.length
decreasing_by exact length_scanToken?_lt _read

/-- All tokens at the cursor, without the end of the input.  The first error discards them. -/
def tokens (c : Cursor) : Except LexicalError (List Lexeme) := c.tokensAfter []

theorem tokensAfter_append (late early : List Lexeme) (c : Cursor) :
    c.tokensAfter (late ++ early) = (c.tokensAfter late).map (early.reverse ++ ·) := by
  fun_induction tokensAfter late c with
  | case1 late c next h =>
    rw [tokensAfter]
    split <;> simp_all [Except.map]
  | case2 late c e next h =>
    rw [tokensAfter]
    split <;> simp_all [Except.map]
  | case3 late c lexeme next h ih =>
    rw [← ih, tokensAfter]
    split <;> simp_all

/-- The first token, and the tokens behind it. -/
theorem tokens_eq (c : Cursor) : c.tokens =
    match c.scanToken? with
    | (none, _) => .ok []
    | (some (.error e), _) => .error e
    | (some (.ok lexeme), next) => next.tokens.map (lexeme :: ·) := by
  rw [tokens, tokensAfter]
  split
  · simp_all
  · simp_all
  · next lexeme next h => simpa [tokens, h] using tokensAfter_append [] [lexeme] next

end Cursor

/-- The tokens of a text, in order. -/
def tokenize (text : String) : Except LexicalError (List Lexeme) := (Cursor.ofString text).tokens

end LetArith
