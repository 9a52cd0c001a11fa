import LetArith.Proofs.Grammar
import LetArith.Proofs.Spelling

/-!
# LetArith.Proofs.Printing — a printed tree has the tokens of the tree

Trees are printed with one blank behind each comma and no other.  Whatever names the trees hold, as long
as they are names, what is printed is read as the tokens that the tree is written with.

* `Token.SpelledUpTo`: characters spell a list of tokens, up to where the text goes on.
* `Expr.spelledUpTo_text`: a printed tree spells its tokens, also in the midst of a text.
* `Expr.tokenize_text`: so a printed tree by itself has these tokens and no others.
-/

namespace LetArith

/-! ### Numbers -/

/-- Every 32-bit integer is printed as an optional sign and its digits. -/
theorem Token.spells_integer (value : Int32) :
    (Token.integer value).Spells (toString value.toInt).toList := by
  have digits (n : Nat) : Nat.toDigits 10 n ≠ [] ∧ ∀ c ∈ Nat.toDigits 10 n, c.isDigit = true :=
    ⟨Nat.toDigits_ne_nil, fun c hc => Nat.isDigit_of_mem_toDigits (by decide) (by decide) hc⟩
  have magnitude (n : Nat) : Nat.ofDigitChars 10 (Nat.toDigits 10 n) 0 = n := Nat.ofDigitChars_ten_toDigits
  by_cases sign : 0 ≤ value.toInt
  · have chars : (toString value.toInt).toList =
        (literalText false (Nat.toDigits 10 value.toInt.toNat)).toList := by
      rw [Int.toString_eq_repr, Int.repr_eq_if, if_pos sign, Nat.toList_repr]
      simp [literalText]
    rw [chars]
    refine .integer (digits _).1 (digits _).2 (int32?_eq_some_iff.mpr ?_)
    simp only [literalValue, magnitude, Bool.false_eq_true, if_false]
    omega
  · have chars : (toString value.toInt).toList =
        (literalText true (Nat.toDigits 10 (-value.toInt).toNat)).toList := by
      rw [Int.toString_eq_repr, Int.repr_eq_if, if_neg sign, String.toList_append, Nat.toList_repr]
      simp [literalText]
    rw [chars]
    refine .integer (digits _).1 (digits _).2 (int32?_eq_some_iff.mpr ?_)
    simp only [literalValue, magnitude, if_true]
    omega

/-! ### Tokens behind one another -/

/-- A character of a kind to which the blank does not belong is no blank. -/
theorem isBlank_eq_false {p : Char → Bool} {c : Char} (h : p c = true) (other : p ' ' = false) :
    isBlank c = false := by
  have ne : c ≠ ' ' := by
    rintro rfl
    exact Bool.noConfusion (other.symm.trans h)
  simpa [isBlank] using ne

/-- What spells a token starts with no blank. -/
theorem Token.Spells.exists_head {token : Token} {chars : List Char} (h : token.Spells chars) :
    ∃ first others, chars = first :: others ∧ isBlank first = false := by
  cases h with
  | punctuation sign =>
    rcases eq_of_punctuation? sign with ⟨rfl, -⟩ | ⟨rfl, -⟩ | ⟨rfl, -⟩ <;> exact ⟨_, [], rfl, rfl⟩
  | word name =>
    obtain ⟨first, others, chars, lower, -⟩ := name
    exact ⟨first, others, chars, isBlank_eq_false lower rfl⟩
  | @integer negative digits value nonempty all fits =>
    obtain ⟨first, others, rfl⟩ := List.exists_cons_of_ne_nil nonempty
    have digit : first.isDigit = true := all first List.mem_cons_self
    cases negative with
    | true => exact ⟨'-', first :: others, by simp [literalText], rfl⟩
    | false => exact ⟨first, others, by simp [literalText], isBlank_eq_false digit rfl⟩

theorem Token.Spells.ne_endOfInput {token : Token} {chars : List Char} (h : token.Spells chars) :
    token ≠ .endOfInput := by
  cases h with
  | punctuation sign => rcases eq_of_punctuation? sign with ⟨-, rfl⟩ | ⟨-, rfl⟩ | ⟨-, rfl⟩ <;> simp
  | word name => simp
  | integer nonempty all fits => simp

namespace Cursor

/-- Blanks are skipped, and the token behind them is read. -/
theorem scan_of_spells {blanks chars rest : List Char} {token : Token} (hb : ∀ c ∈ blanks, isBlank c = true)
    (h : token.Spells chars) (stop : token.EndsBefore rest) (column : Nat) :
    scan ⟨blanks ++ (chars ++ rest), column⟩ =
      (.ok ⟨token, ⟨column + blanks.length, column + blanks.length + chars.length⟩⟩,
        ⟨rest, column + blanks.length + chars.length⟩) := by
  obtain ⟨first, others, rfl, hf⟩ := h.exists_head
  have skip : skipWhile isBlank ⟨blanks ++ (first :: others ++ rest), column⟩ = ⟨_, _⟩ :=
    (run_append column hb (by simpa using hf)).2
  rw [scan, skip, scanLexeme_of_spells h stop]

end Cursor

namespace Token

/-- The characters spell the tokens, with blanks before them at most, up to where `rest` goes on. -/
inductive SpelledUpTo : List Token → (chars rest : List Char) → Prop
  | nil (rest : List Char) : SpelledUpTo [] rest rest
  | cons {token : Token} {tokens : List Token} {blanks chars rest rest' : List Char}
      (separate : ∀ c ∈ blanks, isBlank c = true) (first : token.Spells chars) (stop : token.EndsBefore rest)
      (others : SpelledUpTo tokens rest rest') :
      SpelledUpTo (token :: tokens) (blanks ++ (chars ++ rest)) rest'

variable {token : Token} {tokens front back : List Token} {chars middle rest rest' : List Char}

theorem SpelledUpTo.append (h : SpelledUpTo front chars middle) (h' : SpelledUpTo back middle rest) :
    SpelledUpTo (front ++ back) chars rest := by
  induction h with
  | nil middle => exact h'
  | cons separate first stop others ih => exact .cons separate first stop (ih h')

/-- A token that no blank stands before. -/
theorem SpelledUpTo.next (first : token.Spells chars) (stop : token.EndsBefore rest)
    (others : SpelledUpTo tokens rest rest') : SpelledUpTo (token :: tokens) (chars ++ rest) rest' := by
  have spelled := SpelledUpTo.cons (List.forall_mem_nil _) first stop others
  exact spelled

/-- Signs end where they end. -/
theorem SpelledUpTo.sign {c : Char} (sign : punctuation? c = some token)
    (others : SpelledUpTo tokens rest rest') :
    SpelledUpTo (token :: tokens) (c :: rest) rest' := by
  refine .next (.punctuation sign) (fun c _ => ?_) others
  rcases eq_of_punctuation? sign with ⟨-, rfl⟩ | ⟨-, rfl⟩ | ⟨-, rfl⟩ <;> rfl

/-- Characters that spell tokens up to the end of a text are read as these tokens. -/
theorem SpelledUpTo.tokens_eq (h : SpelledUpTo tokens chars []) (column : Nat) :
    ∃ lexemes, Cursor.tokens ⟨chars, column⟩ = .ok lexemes ∧ lexemes.map Lexeme.token = tokens := by
  generalize hr : ([] : List Char) = rest at h
  induction h generalizing column with
  | nil rest =>
    subst hr
    exact ⟨[], Cursor.tokens_eq_ok_nil_iff.mpr ⟨_, _, rfl, rfl⟩, rfl⟩
  | cons separate first stop others ih =>
    have hs := Cursor.scan_of_spells separate first stop column
    obtain ⟨lexemes, hl, ht⟩ := ih _ hr
    exact ⟨_, Cursor.tokens_eq_ok_cons_iff.mpr ⟨_, hs, first.ne_endOfInput, hl⟩, by rw [List.map_cons, ht]⟩

/-- Where no word goes on, no token does. -/
theorem endsBefore_of_continuesWord (h : ∀ c ∈ rest.head?, continuesWord c = false) (token : Token) :
    token.EndsBefore rest := by
  intro c hc
  have other := h c hc
  simp only [continuesWord, Bool.or_eq_false_iff] at other
  cases token <;> simp [continuedBy, continuesWord, other]

theorem continuesWord_head? {c : Char} (h : continuesWord c = false) (rest : List Char) :
    ∀ d ∈ (c :: rest).head?, continuesWord d = false := by
  simpa using h

end Token

/-! ### Trees -/

theorem Keyword.isName_text (keyword : Keyword) : Token.IsName keyword.text := by
  rcases keyword with (_ | _ | _ | _) | _
  · exact ⟨'a', ['d', 'd'], rfl, rfl, List.all_eq_true.mp rfl⟩
  · exact ⟨'s', ['u', 'b'], rfl, rfl, List.all_eq_true.mp rfl⟩
  · exact ⟨'m', ['u', 'l', 't'], rfl, rfl, List.all_eq_true.mp rfl⟩
  · exact ⟨'d', ['i', 'v'], rfl, rfl, List.all_eq_true.mp rfl⟩
  · exact ⟨'l', ['e', 't'], rfl, rfl, List.all_eq_true.mp rfl⟩

namespace Expr

/-- Whatever the tree writes as a name is a name. -/
def Named : Expr → Prop
  | integer _ => True
  | binary _ lhs rhs => lhs.Named ∧ rhs.Named
  | letIn name bound body => Token.IsName name ∧ bound.Named ∧ body.Named
  | var name _ _ => Token.IsName name

/-- The blank that is printed behind a comma. -/
theorem isBlank_of_mem : ∀ c ∈ [' '], isBlank c = true := List.all_eq_true.mp rfl

open Token in
/-- By induction on the tree, which may stand in the midst of a text and behind blanks. -/
theorem spelledUpTo_text (e : Expr) (named : e.Named) {blanks rest : List Char}
    (separate : ∀ c ∈ blanks, isBlank c = true) (stop : ∀ c ∈ rest.head?, continuesWord c = false) :
    SpelledUpTo e.tokens (blanks ++ (e.text.toList ++ rest)) rest := by
  have opening : continuesWord '(' = false := by decide
  have comma : continuesWord ',' = false := by decide
  have closing : continuesWord ')' = false := by decide
  induction e generalizing blanks rest with
  | integer value =>
    exact .cons separate (Token.spells_integer value) (endsBefore_of_continuesWord stop _) (.nil rest)
  | binary op lhs rhs ihl ihr =>
    have chars : (binary op lhs rhs).text.toList ++ rest =
        op.word.toList ++ '(' :: ([] ++
          (lhs.text.toList ++ ',' :: ([' '] ++ (rhs.text.toList ++ ')' :: rest)))) := by
      simp [text]
    -- a sign is behind each part, so that no word or number goes on into the next one
    have left := ihl named.1 (List.forall_mem_nil _)
      (continuesWord_head? comma ([' '] ++ (rhs.text.toList ++ ')' :: rest)))
    have right := ihr named.2 isBlank_of_mem (continuesWord_head? closing rest)
    rw [chars, tokens]
    refine .cons separate (.word (Keyword.isName_text (.operator op)))
      (endsBefore_of_continuesWord (continuesWord_head? opening _) _) ?_
    exact .sign rfl (left.append (.sign rfl (right.append (.sign rfl (.nil rest)))))
  | letIn name bound body ihb ihe =>
    have chars : (letIn name bound body).text.toList ++ rest =
        "let".toList ++ '(' :: (name.toList ++ ',' :: ([' '] ++ (bound.text.toList ++
          ',' :: ([' '] ++ (body.text.toList ++ ')' :: rest))))) := by
      simp [text]
    have value := ihb named.2.1 isBlank_of_mem
      (continuesWord_head? comma ([' '] ++ (body.text.toList ++ ')' :: rest)))
    have inside := ihe named.2.2 isBlank_of_mem (continuesWord_head? closing rest)
    rw [chars, tokens]
    refine .cons separate (.word (Keyword.isName_text .letIn))
      (endsBefore_of_continuesWord (continuesWord_head? opening _) _) (.sign rfl ?_)
    refine .next (.word named.1) (endsBefore_of_continuesWord (continuesWord_head? comma _) _) (.sign rfl ?_)
    exact value.append (.sign rfl (inside.append (.sign rfl (.nil rest))))
  | var name place operand _ =>
    exact .cons separate (.word named) (endsBefore_of_continuesWord stop _) (.nil rest)

/-- A printed tree has the tokens of the tree. -/
theorem tokenize_text (e : Expr) (named : e.Named) :
    ∃ lexemes, tokenize e.text = .ok lexemes ∧ lexemes.map Lexeme.token = e.tokens := by
  have stop : ∀ c ∈ ([] : List Char).head?, continuesWord c = false := by simp
  have spelled := spelledUpTo_text e named (List.forall_mem_nil _) stop
  rw [List.nil_append, List.append_nil] at spelled
  exact spelled.tokens_eq 0

end Expr
end LetArith
