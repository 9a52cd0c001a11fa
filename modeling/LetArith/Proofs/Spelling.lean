import LetArith.Token.Scan

/-!
# LetArith.Proofs.Spelling — which characters are a token

What can be read at a cursor, said without the cursor: `Token.Spells` names the characters that are a
token, and `Token.EndsBefore` says that the text behind them does not go on with it.

* `Cursor.way`: the first character decides how the scanner goes on.
* `Cursor.scanLexeme_of_spells`: characters that spell a token are read as that token, up to where it
  ends.
* `Cursor.spells_of_scanLexeme`: whatever is read is spelled by the characters that were passed, and
  ends there.
* `Cursor.isName_of_mem_tokens`: every word of a text is a name.
-/

namespace LetArith

/-! ### Classes of characters -/

theorem isDigit_of_startsWord {c : Char} (h : startsWord c = true) : c.isDigit = false := by
  have letter : (decide (c.val ≥ 97) && decide (c.val ≤ 122)) = true := h
  show (decide (c.val ≥ 48) && decide (c.val ≤ 57)) = false
  simp only [Bool.and_eq_true, decide_eq_true_eq, Bool.and_eq_false_iff, decide_eq_false_iff_not, ge_iff_le,
    UInt32.le_iff_toNat_le, UInt32.reduceToNat] at letter ⊢
  omega

theorem eq_of_punctuation? {c : Char} {token : Token} (h : Token.punctuation? c = some token) :
    c = '(' ∧ token = .openParen ∨ c = ')' ∧ token = .closeParen ∨ c = ',' ∧ token = .comma := by
  unfold Token.punctuation? at h
  split at h <;> simp_all

theorem isDigit_of_punctuation? {c : Char} {token : Token} (h : Token.punctuation? c = some token) :
    c.isDigit = false := by
  rcases eq_of_punctuation? h with ⟨rfl, -⟩ | ⟨rfl, -⟩ | ⟨rfl, -⟩ <;> rfl

theorem punctuation?_of_startsWord {c : Char} (h : startsWord c = true) : Token.punctuation? c = none := by
  cases hp : Token.punctuation? c with
  | none => rfl
  | some token =>
    rcases eq_of_punctuation? hp with ⟨rfl, -⟩ | ⟨rfl, -⟩ | ⟨rfl, -⟩ <;> exact absurd h (by decide)

namespace Token

/-- The token with which a character goes on when it stands directly behind it. -/
def continuedBy : Token → Char → Bool
  | .integer _, c => c.isDigit
  | .word _, c => continuesWord c
  | _, _ => false

/-- The text does not go on with the token. -/
def EndsBefore (token : Token) (rest : List Char) : Prop :=
  ∀ c ∈ rest.head?, token.continuedBy c = false

/-- A name of the language: a small letter, then small letters and digits. -/
def IsName (text : String) : Prop :=
  ∃ first others, text.toList = first :: others ∧ first.isLower = true ∧
    ∀ c ∈ others, (c.isLower || c.isDigit) = true

/-- The token is written with these characters. -/
inductive Spells : Token → List Char → Prop
  | punctuation {c : Char} {token : Token} (sign : punctuation? c = some token) : Spells token [c]
  | word {text : String} (name : IsName text) : Spells (.word text) text.toList
  | integer {negative : Bool} {digits : List Char} {value : Int32} (nonempty : digits ≠ [])
      (all : ∀ c ∈ digits, c.isDigit = true) (fits : int32? (literalValue negative digits) = some value) :
      Spells (.integer value) (literalText negative digits).toList

end Token

namespace Cursor

/-! ### Runs -/

/-- A run takes all characters of its kind that stand before one that is not. -/
theorem run_append {p : Char → Bool} {chars rest : List Char} (column : Nat) (all : ∀ c ∈ chars, p c = true)
    (stop : ∀ c ∈ rest.head?, p c = false) :
    run p ⟨chars ++ rest, column⟩ = chars ∧
      skipWhile p ⟨chars ++ rest, column⟩ = ⟨rest, column + chars.length⟩ := by
  have hr : run p ⟨chars ++ rest, column⟩ = chars := by
    rw [run, List.takeWhile_append_of_pos all]
    cases rest with
    | nil => simp
    | cons c rest => simp [stop c rfl]
  refine ⟨hr, ?_⟩
  rw [skipWhile, hr, List.dropWhile_append_of_pos all]
  cases rest with
  | nil => rfl
  | cons c rest => simp [stop c rfl]

theorem head?_rest_skipWhile (p : Char → Bool) (c : Cursor) :
    ∀ ch ∈ (c.skipWhile p).rest.head?, p ch = false := by
  intro ch h
  have stop := List.head?_dropWhile_not p c.rest
  rw [show List.head? (c.rest.dropWhile p) = some ch from h] at stop
  simpa using stop

/-! ### Reading by the first character -/

/-- The ways of the scanner, chosen by a character that is no blank. -/
inductive Way (ch : Char) : Prop
  | digit (h : ch.isDigit = true)
  | sign (token : Token) (h : Token.punctuation? ch = some token)
  | minus (h : ch = '-')
  | letter (h : startsWord ch = true)
  | none (noDigit : ch.isDigit = false) (noSign : Token.punctuation? ch = none) (noMinus : ch ≠ '-')
    (noLetter : startsWord ch = false)

theorem way (ch : Char) : Way ch := by
  by_cases digit : ch.isDigit = true
  · exact .digit digit
  cases sign : Token.punctuation? ch with
  | some token => exact .sign token sign
  | none =>
    by_cases minus : ch = '-'
    · exact .minus minus
    by_cases letter : startsWord ch = true
    · exact .letter letter
    exact .none (by simpa using digit) sign minus (by simpa using letter)

section

variable {ch : Char} (rest : List Char) (column : Nat)

theorem scanLexeme_digit (h : ch.isDigit = true) :
    scanLexeme ⟨ch :: rest, column⟩ = scanInteger ⟨ch :: rest, column⟩ column false := by
  simp only [scanLexeme, h, if_true]

theorem scanLexeme_punctuation {token : Token} (h : Token.punctuation? ch = some token) :
    scanLexeme ⟨ch :: rest, column⟩ = (.ok ⟨token, .single column⟩, ⟨rest, column + 1⟩) := by
  simp [scanLexeme, isDigit_of_punctuation? h, h]

theorem scanLexeme_minus : scanLexeme ⟨'-' :: rest, column⟩ =
    if (peek ⟨rest, column + 1⟩).isDigit then scanInteger ⟨rest, column + 1⟩ column true
    else (.error (.missingDigits (.single column)), ⟨rest, column + 1⟩) := rfl

theorem scanLexeme_letter (h : startsWord ch = true) :
    scanLexeme ⟨ch :: rest, column⟩ = scanWord ⟨ch :: rest, column⟩ := by
  have noMinus : ch ≠ '-' := by
    rintro rfl
    exact absurd h (by decide)
  simp [scanLexeme, isDigit_of_startsWord h, punctuation?_of_startsWord h, noMinus, h]

theorem scanLexeme_none (noDigit : ch.isDigit = false) (noSign : Token.punctuation? ch = none)
    (noMinus : ch ≠ '-') (noLetter : startsWord ch = false) :
    scanLexeme ⟨ch :: rest, column⟩ =
      (.error (.invalidCharacter ch (.single column)), ⟨ch :: rest, column⟩) := by
  simp [scanLexeme, noDigit, noSign, noMinus, noLetter]

end

/-! ### One token -/

theorem scanLexeme_word {text : String} (name : Token.IsName text) {rest : List Char} (column : Nat)
    (stop : (Token.word text).EndsBefore rest) :
    scanLexeme ⟨text.toList ++ rest, column⟩ =
      (.ok ⟨.word text, ⟨column, column + text.toList.length⟩⟩, ⟨rest, column + text.toList.length⟩) := by
  obtain ⟨first, others, chars, lower, tail⟩ := name
  have all : ∀ c ∈ text.toList, continuesWord c = true := by
    intro c hc
    rw [chars] at hc
    rcases List.mem_cons.mp hc with rfl | hc
    · exact continuesWord_of_startsWord lower
    · exact tail c hc
  obtain ⟨hr, hs⟩ := run_append column all stop
  have step : scanLexeme ⟨text.toList ++ rest, column⟩ = scanWord ⟨text.toList ++ rest, column⟩ := by
    rw [chars]
    exact scanLexeme_letter (others ++ rest) column lower
  rw [step, scanWord, hr, hs, String.ofList_toList]

theorem scanInteger_append {negative : Bool} {digits : List Char} {value : Int32}
    (all : ∀ c ∈ digits, c.isDigit = true) (fits : int32? (literalValue negative digits) = some value)
    {rest : List Char} (stop : (Token.integer value).EndsBefore rest) (column start : Nat) :
    scanInteger ⟨digits ++ rest, column⟩ start negative =
      (.ok ⟨.integer value, ⟨start, column + digits.length⟩⟩, ⟨rest, column + digits.length⟩) := by
  obtain ⟨hr, hs⟩ := run_append column all stop
  simp only [scanInteger, hr, hs, fits]

theorem scanLexeme_integer {negative : Bool} {digits : List Char} {value : Int32} (nonempty : digits ≠ [])
    (all : ∀ c ∈ digits, c.isDigit = true) (fits : int32? (literalValue negative digits) = some value)
    {rest : List Char} (stop : (Token.integer value).EndsBefore rest) (column : Nat) :
    scanLexeme ⟨(literalText negative digits).toList ++ rest, column⟩ =
      (.ok ⟨.integer value, ⟨column, column + (literalText negative digits).toList.length⟩⟩,
        ⟨rest, column + (literalText negative digits).toList.length⟩) := by
  obtain ⟨first, others, rfl⟩ := List.exists_cons_of_ne_nil nonempty
  have hd : first.isDigit = true := all first List.mem_cons_self
  cases negative with
  | false =>
    have step : scanLexeme ⟨(first :: others) ++ rest, column⟩ =
        scanInteger ⟨(first :: others) ++ rest, column⟩ column false :=
      scanLexeme_digit (others ++ rest) column hd
    simpa [literalText] using step.trans (scanInteger_append all fits stop column column)
  | true =>
    have step : scanLexeme ⟨'-' :: ((first :: others) ++ rest), column⟩ =
        scanInteger ⟨(first :: others) ++ rest, column + 1⟩ column true :=
      (scanLexeme_minus ((first :: others) ++ rest) column).trans (if_pos hd)
    have read := step.trans (scanInteger_append all fits stop (column + 1) column)
    simpa [literalText, Nat.add_assoc, Nat.add_comm, Nat.add_left_comm] using read

/-- Characters that spell a token are read as that token. -/
theorem scanLexeme_of_spells {chars rest : List Char} {token : Token} (h : token.Spells chars)
    (stop : token.EndsBefore rest) (column : Nat) :
    scanLexeme ⟨chars ++ rest, column⟩ =
      (.ok ⟨token, ⟨column, column + chars.length⟩⟩, ⟨rest, column + chars.length⟩) := by
  cases h with
  | punctuation sign => exact scanLexeme_punctuation rest column sign
  | word name => exact scanLexeme_word name column stop
  | integer nonempty all fits => exact scanLexeme_integer nonempty all fits stop column

/-- A number that was read from a digit on is spelled by the run of digits, with its sign before them. -/
theorem spells_of_scanInteger {c next : Cursor} {start : Nat} {negative : Bool} {lexeme : Lexeme}
    (h : c.scanInteger start negative = (.ok lexeme, next)) (digit : c.peek.isDigit = true) :
    lexeme.token.Spells (literalText negative (c.run Char.isDigit)).toList ∧
      lexeme.token.EndsBefore next.rest ∧
      lexeme.span = ⟨start, next.column⟩ ∧ next = c.skipWhile Char.isDigit := by
  have nonempty : c.run Char.isDigit ≠ [] := by
    cases hr : c.rest with
    | nil => exact absurd digit (by simp [peek, hr, endMark])
    | cons first tail =>
      have here : first.isDigit = true := by simpa [peek, hr] using digit
      simp [run, hr, here]
  unfold scanInteger at h
  dsimp only at h
  split at h
  · next value fits =>
    cases h
    exact ⟨.integer nonempty (forall_mem_run _ c) fits, head?_rest_skipWhile _ c, rfl, rfl⟩
  · cases h

/-- The run of characters from a letter on is a name. -/
theorem isName_run {first : Char} (letter : startsWord first = true) (tail : List Char) (column : Nat) :
    Token.IsName (String.ofList (run continuesWord ⟨first :: tail, column⟩)) := by
  have chars : run continuesWord ⟨first :: tail, column⟩ = first :: tail.takeWhile continuesWord := by
    simp [run, continuesWord_of_startsWord letter]
  refine ⟨first, tail.takeWhile continuesWord, ?_, letter, fun c hc => ?_⟩
  · rw [String.toList_ofList, chars]
  · have here : c ∈ run continuesWord ⟨first :: tail, column⟩ := by
      rw [chars]
      exact List.mem_cons_of_mem first hc
    exact forall_mem_run continuesWord ⟨first :: tail, column⟩ c here

/-- Whatever is read in front of no blank is the end of the text, or a token that ends where reading
goes on. -/
theorem spells_of_scanLexeme {c next : Cursor} {lexeme : Lexeme} (h : c.scanLexeme = (.ok lexeme, next)) :
    (c.rest = [] ∧ lexeme = ⟨.endOfInput, ⟨c.column, c.column⟩⟩ ∧ next = c) ∨
      ∃ chars, lexeme.token.Spells chars ∧ lexeme.token.EndsBefore next.rest ∧ c.rest = chars ++ next.rest ∧
        lexeme.span = ⟨c.column, next.column⟩ ∧ next.column = c.column + chars.length := by
  obtain ⟨rest, column⟩ := c
  cases rest with
  | nil =>
    cases h
    exact .inl ⟨rfl, rfl, rfl⟩
  | cons ch tail =>
    right
    cases way ch with
    | digit digit =>
      rw [scanLexeme_digit tail column digit] at h
      obtain ⟨spells, stop, span, rfl⟩ := spells_of_scanInteger h digit
      exact ⟨_, spells, stop, by simp [literalText], span, by simp [literalText]⟩
    | sign token sign =>
      rw [scanLexeme_punctuation tail column sign] at h
      cases h
      refine ⟨[ch], .punctuation sign, fun c hc => ?_, rfl, rfl, rfl⟩
      rcases eq_of_punctuation? sign with ⟨-, rfl⟩ | ⟨-, rfl⟩ | ⟨-, rfl⟩ <;> rfl
    | minus minus =>
      subst minus
      rw [scanLexeme_minus] at h
      split at h
      · next digit =>
        obtain ⟨spells, stop, span, rfl⟩ := spells_of_scanInteger h digit
        exact ⟨_, spells, stop, by simp [literalText], span,
          by simp [literalText, Nat.add_assoc, Nat.add_comm 1]⟩
      · cases h
    | letter letter =>
      -- nothing that continues a word is left behind the longest run
      rw [scanLexeme_letter tail column letter] at h
      cases h
      refine ⟨_, .word (isName_run letter tail column), head?_rest_skipWhile _ _, ?_, rfl, ?_⟩
      · rw [String.toList_ofList, run_append_rest_skipWhile]
      · rw [String.toList_ofList]
        rfl
    | none noDigit noSign noMinus noLetter =>
      rw [scanLexeme_none tail column noDigit noSign noMinus noLetter] at h
      cases h

/-! ### All tokens -/

theorem tokens_eq_ok_nil_iff {c : Cursor} :
    c.tokens = .ok [] ↔ ∃ lexeme next, c.scan = (.ok lexeme, next) ∧ lexeme.token = .endOfInput := by
  rw [tokens_eq, scanToken?]
  obtain ⟨result, next⟩ := c.scan
  cases result with
  | error e => simp
  | ok lexeme =>
    by_cases ht : lexeme.token = .endOfInput <;> cases hn : next.tokens <;> simp [ht, hn, Except.map]

theorem tokens_eq_ok_cons_iff {c : Cursor} {lexeme : Lexeme} {lexemes : List Lexeme} :
    c.tokens = .ok (lexeme :: lexemes) ↔
      ∃ next, c.scan = (.ok lexeme, next) ∧ lexeme.token ≠ .endOfInput ∧ next.tokens = .ok lexemes := by
  rw [tokens_eq, scanToken?]
  obtain ⟨result, next⟩ := c.scan
  cases result with
  | error e => simp
  | ok found =>
    by_cases ht : found.token = .endOfInput
    · simp only [ht, if_true, Except.ok.injEq, List.nil_eq, reduceCtorEq, false_iff]
      rintro ⟨next', heq, hne, -⟩
      cases heq
      exact hne ht
    · simp only [ht, if_false]
      constructor
      · intro h
        cases hn : next.tokens with
        | error e => rw [hn] at h; cases h
        | ok behind =>
          rw [hn] at h
          cases h
          exact ⟨next, rfl, ht, hn⟩
      · rintro ⟨next', heq, -, hn⟩
        cases heq
        rw [hn]
        rfl

/-- Every token of a text was read somewhere. -/
theorem exists_scan_of_mem_tokens {lexeme : Lexeme} :
    ∀ {lexemes : List Lexeme} {c : Cursor}, c.tokens = .ok lexemes → lexeme ∈ lexemes →
      ∃ c' next, scan c' = (.ok lexeme, next) ∧ lexeme.token ≠ .endOfInput
  | [], _, _, hm => absurd hm List.not_mem_nil
  | _ :: _, c, h, hm => by
    obtain ⟨next, hs, ht, hn⟩ := tokens_eq_ok_cons_iff.mp h
    rcases List.mem_cons.mp hm with rfl | hm
    · exact ⟨c, next, hs, ht⟩
    · exact exists_scan_of_mem_tokens hn hm

/-- A word that is read is a name. -/
theorem isName_of_scan {c next : Cursor} {lexeme : Lexeme} {text : String} (h : c.scan = (.ok lexeme, next))
    (ht : lexeme.token = .word text) : Token.IsName text := by
  rcases spells_of_scanLexeme h with ⟨-, rfl, -⟩ | ⟨chars, spells, -⟩
  · cases ht
  · rw [ht] at spells
    cases spells with
    | punctuation sign => rcases eq_of_punctuation? sign with ⟨-, h⟩ | ⟨-, h⟩ | ⟨-, h⟩ <;> cases h
    | word name => exact name

/-- Every word of a text is a name. -/
theorem isName_of_mem_tokens {c : Cursor} {lexemes : List Lexeme} {text : String} (h : c.tokens = .ok lexemes)
    (hm : Token.word text ∈ lexemes.map Lexeme.token) : Token.IsName text := by
  obtain ⟨lexeme, hl, ht⟩ := List.mem_map.mp hm
  obtain ⟨c', next, hs, -⟩ := exists_scan_of_mem_tokens h hl
  exact isName_of_scan hs ht

end Cursor
end LetArith
