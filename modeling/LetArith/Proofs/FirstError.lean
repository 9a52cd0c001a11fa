import LetArith.Proofs.Stopping
import Mathlib.Tactic.MkIffOfInductiveProp

/-!
# LetArith.Proofs.FirstError — errors are at the first wrong token

A text is read from left to right as long as it can be the beginning of a program.  An error of the
grammar is therefore about the first token with which it cannot, and where the message says what was
expected, it says all that could stand there.  Only the nesting limit is different: behind the tokens
before there are programs, but none within the limit.

* `Slot.HasFault.unlimited`: the limit adds no error but its own.
* `Slot.HasFault.admits_iff_meant`: what a message says was expected is what the slot admits.
* `parse_error_at_first_wrong_token`: so the errors are where they should be, and say what they should.
-/

namespace LetArith

open Grammar Token

/-- Behind these lexemes at the cursor there is this one, or the end of the text. -/
def Cursor.Shows (c : Cursor) (front : List Lexeme) (found : Lexeme) : Prop :=
  ∃ last next, c.Munches front last ∧ last.scan = (.ok found, next)

theorem Cursor.Munches.lexable {c last : Cursor} {lexemes : List Lexeme} (h : c.Munches lexemes last) :
    Lexable (lexemes.map Lexeme.token) := by
  induction lexemes generalizing c with
  | nil => exact lexable_nil
  | cons lexeme lexemes ih =>
    obtain ⟨next, hs, -, others⟩ := Cursor.munches_cons_iff.mp h
    exact lexable_cons_iff.mpr ⟨fun text ht => Cursor.isName_of_scan hs ht, ih others⟩

namespace Grammar

/-! ### The limit -/

section

variable {n level : Nat} {agenda : Agenda} {front : List Token} {slot : Slot} {token : Token} {fault : Fault}

theorem Agenda.Awaits.unlimited (h : agenda.Awaits (some n) level front slot) :
    agenda.Awaits none level front slot := by
  induction h with
  | sign => exact .sign
  | signThen others ih => exact .signThen ih
  | name => exact .name
  | nameThen free fresh others ih => exact .nameThen free fresh ih
  | boundThen others ih => exact .boundThen ih
  | part => exact .part
  | inside within inner ih => exact .inside (by simp) ih
  | partThen first others ih => exact .partThen first.unlimited ih

/-- Without the limit the same slots are behind the tokens. -/
theorem Awaits.unlimited (h : Awaits (some n) front slot) : Awaits none front slot := by
  cases h with
  | start => exact .start
  | inside h => exact .inside h.unlimited

/-- No slot is deeper than the limit. -/
theorem Agenda.Awaits.level_le {symbol : Symbol} {scope : Scope} {place level' : Nat}
    (h : agenda.Awaits (some n) level front slot) (hl : level ≤ n)
    (hs : slot = .part symbol scope place level') :
    level' ≤ n := by
  induction h with
  | sign => cases hs
  | signThen others ih => exact ih hl hs
  | name => cases hs
  | nameThen free fresh others ih => exact ih hl hs
  | boundThen others ih => exact ih hl hs
  | part =>
    cases hs
    exact hl
  | inside within inner ih => exact ih (within n rfl) hs
  | partThen first others ih => exact ih hl hs

theorem Awaits.level_le {symbol : Symbol} {scope : Scope} {place : Nat}
    (h : Awaits (some n) front (.part symbol scope place level)) : level ≤ n := by
  cases h with
  | inside h => exact h.level_le (Nat.zero_le n) rfl

namespace Slot

theorem ExpressionFault.unlimited (h : ExpressionFault (some n) level token fault)
    (other : fault ≠ .tooDeep) :
    ExpressionFault none level token fault := by
  cases h with
  | noWord noWord => exact .noWord noWord
  | unknownOperation within free => exact .unknownOperation (by simp) free
  | tooDeep => exact absurd rfl other

/-- What is wrong with a token is wrong without the limit, unless it is the nesting. -/
theorem HasFault.unlimited (h : slot.HasFault (some n) token fault) (other : fault ≠ .tooDeep) :
    slot.HasFault none token fault := by
  cases h with
  | noProgram noWord => exact .noProgram noWord
  | program first => exact .program (first.unlimited other)
  | expression first => exact .expression (first.unlimited other)
  | operand first => exact .operand (first.unlimited other)
  | noOperand noWord noInteger => exact .noOperand noWord noInteger
  | unboundVariable free unknown => exact .unboundVariable free unknown
  | noName noWord => exact .noName noWord
  | reservedName scope keyword => exact .reservedName scope keyword
  | redeclaration free visible => exact .redeclaration free visible
  | noSign otherKind => exact .noSign otherKind

theorem ExpressionFault.exists_word (h : ExpressionFault (some n) level token .tooDeep) :
    n ≤ level ∧ ∃ text, token = .word text := by
  cases h with
  | tooDeep text bounded deep =>
    obtain rfl := Option.some.inj bounded
    exact ⟨deep, text, rfl⟩

/-- What is too deep is a word with which a part starts that is an expression. -/
theorem HasFault.exists_part (hn : 0 < n) (h : slot.HasFault (some n) token .tooDeep) :
    ∃ symbol scope place level, slot = .part symbol scope place level ∧ n ≤ level ∧
      ∃ text, token = .word text := by
  cases h with
  | program first =>
    have deep := first.exists_word.1
    omega
  | expression first => exact ⟨_, _, _, _, rfl, first.exists_word⟩
  | operand first => exact ⟨_, _, _, _, rfl, first.exists_word⟩

end Slot

end

/-! ### What was expected -/

/-- The token is one that a message means by what it says was expected: that sign, a reserved word, or a
new name that is not visible. -/
@[mk_iff]
inductive Meant (scope : Scope) : String → Token → Prop
  | openParen : Meant scope "(" .openParen
  | closeParen : Meant scope ")" .closeParen
  | comma : Meant scope "," .comma
  | endOfInput : Meant scope "end of input" .endOfInput
  | keyword {word : String} (reserved : word ∈ ["add", "sub", "mult", "div", "let"]) :
      Meant scope "add, sub, mult, div, let" (.word word)
  | name {name : String} (isName : IsName name) (free : name ∉ ["add", "sub", "mult", "div", "let"])
      (fresh : scope.contains name = false) : Meant scope "variable name" (.word name)

section

variable {scope : Scope} {token : Token} {slot : Slot} {expected : String} {limit : Option Nat}

/-- What a message calls a sign means just that sign. -/
theorem meant_sign_iff {sign : Sign} : Meant scope sign.token.kind.text token ↔ token = sign.token := by
  cases sign <;> simp [meant_iff, Sign.token, kind, TokenKind.text]

theorem meant_listing_iff :
    Meant scope "add, sub, mult, div, let" token ↔ ∃ keyword, token = .word (Keyword.text keyword) := by
  rw [meant_iff]
  constructor
  · intro h
    obtain ⟨word, reserved, rfl⟩ : ∃ word ∈ ["add", "sub", "mult", "div", "let"], token = .word word := by
      simpa using h
    obtain ⟨keyword, rfl⟩ := Keyword.mem_words_iff.mp reserved
    exact ⟨keyword, rfl⟩
  · rintro ⟨keyword, rfl⟩
    exact .inr (.inr (.inr (.inr (.inl ⟨_, Keyword.mem_words_iff.mpr ⟨keyword, rfl⟩, rfl, rfl⟩))))

theorem meant_name_iff : Meant scope "variable name" token ↔
    ∃ name, IsName name ∧ Keyword.ofText? name = none ∧ scope.contains name = false ∧ token = .word name := by
  simp only [Keyword.ofText?_eq_none_iff, meant_iff]
  simp

namespace Slot

theorem ExpressionFault.eq_listing {level : Nat}
    (h : ExpressionFault limit level token (.unexpectedToken expected)) :
    expected = "add, sub, mult, div, let" ∧ ∀ text, token ≠ .word text := by
  cases h with
  | noWord noWord => exact ⟨Keyword.listing_eq, noWord⟩

/-- A token is unexpected at the start of an expression that is no operand, as a name, or in the place
of a sign. -/
theorem HasFault.unexpectedToken_cases (h : slot.HasFault limit token (.unexpectedToken expected)) :
    (∃ scope place level, slot = .part .expression scope place level ∧ expected = "add, sub, mult, div, let" ∧
      ∀ text, token ≠ .word text) ∨
    (∃ scope, slot = .name scope ∧ expected = "variable name" ∧ ∀ text, token ≠ .word text) ∨
    ∃ sign, slot = .sign sign ∧ expected = sign.token.kind.text ∧ token.kind ≠ sign.token.kind := by
  cases h with
  | program first => exact absurd rfl (first.eq_listing.2 _)
  | expression first => exact .inl ⟨_, _, _, rfl, first.eq_listing⟩
  | operand first => exact absurd rfl (first.eq_listing.2 _)
  | noName noWord => exact .inr (.inl ⟨_, rfl, rfl, noWord⟩)
  | noSign other => exact .inr (.inr ⟨_, rfl, rfl, other⟩)

/-- What a message says was expected is what the slot admits, and the token is of another kind. -/
theorem HasFault.admits_iff_meant (h : slot.HasFault limit token (.unexpectedToken expected)) :
    ∃ scope, (expected = "variable name" → slot = .name scope) ∧
      (∀ other, (∀ text, other = .word text → IsName text) →
        (slot.Admits other ↔ Meant scope expected other)) ∧
      ∀ other, Meant scope expected other → token.kind ≠ other.kind := by
  have ne_kind {text : String} (noWord : ∀ text, token ≠ .word text) :
      token.kind ≠ (Token.word text).kind := by
    cases token with
    | word text => exact absurd rfl (noWord text)
    | integer _ | openParen | closeParen | comma | endOfInput => simp [Token.kind]
  obtain ⟨scope, place, level, rfl, rfl, noWord⟩ | ⟨scope, rfl, rfl, noWord⟩ | ⟨sign, rfl, rfl, other⟩ :=
    h.unexpectedToken_cases
  -- the text tells the kind of the slot: where an operand is missing the error is another one
  · refine ⟨scope, fun same => absurd same (by decide), fun other _ => ?_, fun other meant => ?_⟩
    · rw [meant_listing_iff]
      constructor
      · intro admits
        cases admits
        exact ⟨_, rfl⟩
      · rintro ⟨keyword, rfl⟩
        exact .keyword _ _ _ _ keyword
    · obtain ⟨keyword, rfl⟩ := meant_listing_iff.mp meant
      exact ne_kind noWord
  · refine ⟨scope, fun _ => rfl, fun other isName => ?_, fun other meant => ?_⟩
    · rw [meant_name_iff]
      constructor
      · intro admits
        cases admits with
        | name free fresh => exact ⟨_, isName _ rfl, free, fresh, rfl⟩
      · rintro ⟨name, -, free, fresh, rfl⟩
        exact .name free fresh
    · obtain ⟨name, -, -, -, rfl⟩ := meant_name_iff.mp meant
      exact ne_kind noWord
  · refine ⟨.empty, fun same => ?_, fun token _ => ?_, fun token meant => ?_⟩
    · cases sign <;> exact absurd same (by decide)
    · rw [meant_sign_iff]
      constructor
      · intro admits
        cases admits
        rfl
      · rintro rfl
        exact .sign sign
    · rwa [meant_sign_iff.mp meant]

theorem HasFault.expected_mem (h : slot.HasFault limit token (.unexpectedToken expected)) :
    expected ∈ ["(", ")", ",", "end of input", "variable name", "add, sub, mult, div, let"] := by
  obtain ⟨-, -, -, -, rfl, -⟩ | ⟨-, -, rfl, -⟩ | ⟨sign, -, rfl, -⟩ := h.unexpectedToken_cases
  · decide
  · decide
  · cases sign <;> decide

end Slot

end

end Grammar

/-! ### Errors -/

/-- An error of the grammar is about the first token with which the tokens are not the beginning of any
program, the end of the text included.  What it says was expected is all that could stand there, and
nothing of the kind that was found.  An error of the nesting is about a word that would start an
expression deeper than the limit: the tokens before are those of a program, but none within the limit
goes on with it. -/
theorem parse_error_at_first_wrong_token {text : String} {err : ParseError} (h : Expr.parse text = .error err)
    (syntactic : ∀ e, err ≠ .lexical e) :
    ∃ (fault : Fault) (front : List Lexeme) (found : Lexeme),
      err = fault.about found ∧ (Cursor.ofString text).Shows front found ∧
      Viable (front.map Lexeme.token) ∧
      (fault ≠ .tooDeep → ¬ MayFollow (front.map Lexeme.token) found.token) ∧
      (∀ expected, fault = .unexpectedToken expected →
        expected ∈ ["(", ")", ",", "end of input", "variable name", "add, sub, mult, div, let"] ∧
        ∃ scope, (expected = "variable name" → Awaits none (front.map Lexeme.token) (.name scope)) ∧
          (∀ token, (∀ text, token = .word text → IsName text) →
            (MayFollow (front.map Lexeme.token) token ↔ Meant scope expected token)) ∧
          ∀ token, Meant scope expected token → found.token.kind ≠ token.kind) ∧
      (fault = .tooDeep → (∃ text, found.token = .word text) ∧
        (∃ symbol scope place, Awaits none (front.map Lexeme.token) (.part symbol scope place maxDepth)) ∧
        ∀ tail e, ¬ Program (some maxDepth) (front.map Lexeme.token ++ found.token :: tail) e) := by
  obtain ⟨e, -, rfl⟩ | ⟨front, found, fault, stopped, rfl⟩ := Expr.exists_stopsAt_of_parse h
  · exact absurd rfl (syntactic e)
  · cases stopped with
    | @intro last next slot munched scanned awaits fault? ready =>
      have lexable := munched.lexable
      have wrong := Slot.fault?_eq_some_iff.mp fault?
      have follow_iff {token : Token} (isName : ∀ text, token = .word text → IsName text) :
          MayFollow (front.map Lexeme.token) token ↔ slot.fault? none token = none :=
        awaits.mayFollow_iff_fault? lexable isName
      refine ⟨fault, front, found, rfl, ⟨last, next, munched, scanned⟩, awaits.viable lexable,
        fun other follows => ?_, fun expected same => ?_, fun deep => ?_⟩
      · have fine := (follow_iff fun text ht => Cursor.isName_of_scan scanned ht).mp follows
        cases (Slot.fault?_eq_some_iff.mpr (wrong.unlimited other)).symm.trans fine
      · subst same
        obtain ⟨scope, name, admits, kinds⟩ := wrong.admits_iff_meant
        refine ⟨wrong.expected_mem, scope, fun same => name same ▸ awaits.unlimited,
          fun token isName => ?_, kinds⟩
        rw [follow_iff isName, Slot.fault?_none_iff, admits token isName]
      · -- no slot is above the limit, so that one that is too deep is at the limit
        subst deep
        obtain ⟨symbol, scope, place, level, rfl, hl, word⟩ := wrong.exists_part (by decide)
        obtain rfl := Nat.le_antisymm awaits.level_le hl
        refine ⟨word, ⟨symbol, scope, place, awaits.unlimited⟩, fun tail e derived => ?_⟩
        cases fault?.symm.trans (awaits.fault?_of_program derived)

/-- The body of a `let` has to be an expression, and a number is none. -/
theorem parse_error_at_numeral_body :
    Expr.parse "let(a,1,2)" = .error (.unexpectedToken "add, sub, mult, div, let" ⟨.integer 2, ⟨8, 9⟩⟩) ∧
      ∃ front, Viable front ∧ ¬ MayFollow front (.integer 2) ∧ MayFollow front (.word "add") := by
  have refused : Expr.parse "let(a,1,2)" =
      .error (.unexpectedToken "add, sub, mult, div, let" ⟨.integer 2, ⟨8, 9⟩⟩) := by decide +kernel
  obtain ⟨fault, front, found, same, -, viable, wrong, wanted, -⟩ :=
    parse_error_at_first_wrong_token refused fun e => by simp
  have about : (Fault.unexpectedToken "add, sub, mult, div, let").about ⟨.integer 2, ⟨8, 9⟩⟩ =
      fault.about found := same
  obtain rfl := Fault.eq_of_about_eq about
  obtain rfl := (ParseError.unexpectedToken.inj about).2
  obtain ⟨-, scope, -, follow_iff, -⟩ := wanted _ rfl
  refine ⟨refused, front.map Lexeme.token, viable, wrong (by simp), (follow_iff _ fun text ht => ?_).mpr ?_⟩
  · cases ht
    exact Keyword.isName_text (.operator .add)
  · exact .keyword (by decide)

end LetArith
