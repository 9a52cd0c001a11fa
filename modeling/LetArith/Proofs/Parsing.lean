import LetArith.Proofs.Grammar
import LetArith.Proofs.Reading

/-!
# LetArith.Proofs.Parsing — the reader accepts the language, and nothing else

* `ParseM.sound_expression`: what the reader returns is derived from the tokens that it took.
* `ParseM.complete_expression`: tokens that are derived are read, up to the first expression that is
  nested too deep.
-/

namespace LetArith

open Grammar

namespace ParseM

/-! ### Soundness -/

section Sound

variable {limit : Option Nat} {level : Nat} {inner : Scope → Nat → ParseM Expr}

/-- What is returned is derived from the tokens that were taken. -/
def Sound (limit : Option Nat) (symbol : Symbol) (level : Nat) (read : Scope → Nat → ParseM Expr) : Prop :=
  ∀ scope place s e s', read scope place s = .ok e s' →
    ∃ lexemes, s.ahead.Reads lexemes s'.ahead ∧
      Derives limit symbol scope place level (lexemes.map Lexeme.token) e

theorem sound_operand (hi : Sound limit .expression level inner) :
    Sound limit .operand level (operand inner) := by
  intro scope place s e s' h
  obtain ⟨found, t, hp, h⟩ := bind_eq_ok_iff.mp h
  obtain ⟨rfl, rfl⟩ := peek_eq_ok_iff.mp hp
  cases ht : s.ahead.held.token with
  | integer value =>
    rw [ht] at h
    obtain ⟨lexeme, t, ha, h⟩ := bind_eq_ok_iff.mp h
    obtain ⟨rfl, rfl⟩ := pure_eq_ok_iff.mp h
    have taken := advance_of_ok ha
    obtain rfl := Lookahead.held_advance taken
    exact ⟨_, Lookahead.reads_singleton taken, by rw [List.map_singleton, ht]; exact .integer value⟩
  | word text =>
    simp only [ht] at h
    split at h
    · obtain ⟨lexemes, hr, hd⟩ := hi _ _ _ _ _ h
      exact ⟨lexemes, hr, .expression hd⟩
    · next free =>
      cases visible : scope.lookup? text with
      | none =>
        rw [visible] at h
        cases h
      | some shared =>
        rw [visible] at h
        obtain ⟨lexeme, t, ha, h⟩ := bind_eq_ok_iff.mp h
        obtain ⟨rfl, rfl⟩ := pure_eq_ok_iff.mp h
        have taken := advance_of_ok ha
        obtain rfl := Lookahead.held_advance taken
        exact ⟨_, Lookahead.reads_singleton taken,
          by rw [List.map_singleton, ht]; exact .name (by simpa using free) visible⟩
  | openParen | closeParen | comma | endOfInput =>
    rw [ht] at h
    cases h

/-- A token that carries nothing is known by its kind. -/
theorem eq_of_kind_eq {token found : Token} (bare : token.kind ≠ .integer ∧ token.kind ≠ .word)
    (h : found.kind = token.kind) : found = token := by
  cases token <;> cases found <;> simp_all [Token.kind]

/-- A sign that was expected was taken. -/
theorem reads_of_expect (token : Token) (bare : token.kind ≠ .integer ∧ token.kind ≠ .word) {lexeme : Lexeme}
    {s s' : ParseState} (h : expect token.kind s = .ok lexeme s') :
    ∃ taken : Lexeme, s.ahead.Reads [taken] s'.ahead ∧ taken.token = token := by
  obtain ⟨ha, hk⟩ := expect_of_ok h
  exact ⟨lexeme, Lookahead.reads_singleton ha, eq_of_kind_eq bare hk⟩

theorem sound_application (hi : Sound limit .expression (level + 1) inner) {op : Operator}
    {scope : Scope} {place : Nat} {s s' : ParseState} {e : Expr} (within : ∀ n ∈ limit, level < n)
    (hw : s.ahead.held.token = .word op.word) (h : application inner op scope place s = .ok e s') :
    ∃ lexemes, s.ahead.Reads lexemes s'.ahead ∧
      Derives limit .expression scope place level (lexemes.map Lexeme.token) e := by
  obtain ⟨word, s₁, h₁, h⟩ := bind_eq_ok_iff.mp h
  obtain ⟨opening, s₂, h₂, h⟩ := bind_eq_ok_iff.mp h
  obtain ⟨lhs, s₃, h₃, h⟩ := bind_eq_ok_iff.mp h
  obtain ⟨comma, s₄, h₄, h⟩ := bind_eq_ok_iff.mp h
  obtain ⟨rhs, s₅, h₅, h⟩ := bind_eq_ok_iff.mp h
  obtain ⟨closing, s₆, h₆, h⟩ := bind_eq_ok_iff.mp h
  obtain ⟨rfl, rfl⟩ := pure_eq_ok_iff.mp h
  have r₁ := (expect_of_ok h₁).1
  obtain ⟨opening, r₂, t₂⟩ := reads_of_expect .openParen (by decide) h₂
  obtain ⟨lhsLexemes, r₃, left⟩ := sound_operand hi _ _ _ _ _ h₃
  obtain ⟨comma, r₄, t₄⟩ := reads_of_expect .comma (by decide) h₄
  obtain ⟨rhsLexemes, r₅, right⟩ := sound_operand hi _ _ _ _ _ h₅
  obtain ⟨closing, r₆, t₆⟩ := reads_of_expect .closeParen (by decide) h₆
  refine ⟨word :: opening :: (lhsLexemes ++ comma :: (rhsLexemes ++ [closing])),
    .cons r₁ (r₂.append (r₃.append (r₄.append (r₅.append r₆)))), ?_⟩
  have t₁ : word.token = .word op.word := by rw [Lookahead.held_advance r₁, hw]
  simp only [List.map_cons, List.map_append, List.map_nil, t₁, t₂, t₄, t₆]
  exact .application op within left right

theorem sound_letBinding (hi : Sound limit .expression (level + 1) inner) {scope : Scope} {place : Nat}
    {s s' : ParseState} {e : Expr} (within : ∀ n ∈ limit, level < n) (hw : s.ahead.held.token = .word "let")
    (h : letBinding inner scope place s = .ok e s') :
    ∃ lexemes, s.ahead.Reads lexemes s'.ahead ∧
      Derives limit .expression scope place level (lexemes.map Lexeme.token) e := by
  obtain ⟨word, s₁, h₁, h⟩ := bind_eq_ok_iff.mp h
  obtain ⟨opening, s₂, h₂, h⟩ := bind_eq_ok_iff.mp h
  obtain ⟨name, s₃, h₃, h⟩ := bind_eq_ok_iff.mp h
  obtain ⟨comma, s₄, h₄, h⟩ := bind_eq_ok_iff.mp h
  obtain ⟨bound, s₅, h₅, h⟩ := bind_eq_ok_iff.mp h
  obtain ⟨comma', s₆, h₆, h⟩ := bind_eq_ok_iff.mp h
  obtain ⟨u, s₇, h₇, h⟩ := bind_eq_ok_iff.mp h
  obtain ⟨body, s₈, h₈, h⟩ := bind_eq_ok_iff.mp h
  obtain ⟨closing, s₉, h₉, h⟩ := bind_eq_ok_iff.mp h
  obtain ⟨rfl, rfl⟩ := pure_eq_ok_iff.mp h
  have r₁ := (expect_of_ok h₁).1
  obtain ⟨opening, r₂, t₂⟩ := reads_of_expect .openParen (by decide) h₂
  obtain ⟨named, r₃, t₃, free, fresh⟩ := newName_of_ok h₃
  obtain ⟨comma, r₄, t₄⟩ := reads_of_expect .comma (by decide) h₄
  obtain ⟨boundLexemes, r₅, value⟩ := sound_operand hi _ _ _ _ _ h₅
  obtain ⟨comma', r₆, t₆⟩ := reads_of_expect .comma (by decide) h₆
  obtain ⟨bodyLexemes, r₈, inside⟩ := hi _ _ _ _ _ h₈
  obtain ⟨closing, r₉, t₉⟩ := reads_of_expect .closeParen (by decide) h₉
  -- what is recorded takes no token
  rw [recordBound_of_ok h₇] at r₈
  refine ⟨word :: opening :: named :: comma :: (boundLexemes ++ comma' :: (bodyLexemes ++ [closing])),
    .cons r₁ (r₂.append (.cons r₃ (r₄.append (r₅.append (r₆.append (r₈.append r₉)))))), ?_⟩
  have t₁ : word.token = .word "let" := by rw [Lookahead.held_advance r₁, hw]
  simp only [List.map_cons, List.map_append, List.map_nil, t₁, t₂, t₃, t₄, t₆, t₉]
  exact .letIn within free fresh value inside

/-- By induction on the levels that are left. -/
theorem sound_expression {n : Nat} : ∀ {levels level : Nat}, level + levels = n →
    Sound (some n) .expression level (expression levels)
  | 0, level, _ => by
    intro scope place s e s' h
    obtain ⟨⟨text, span⟩, t, hp, h⟩ := bind_eq_ok_iff.mp h
    cases h
  | levels + 1, level, hn => by
    intro scope place s e s' h
    have hi : Sound (some n) .expression (level + 1) (expression levels) := sound_expression (by omega)
    have within : ∀ m ∈ some n, level < m := by
      intro m hm
      obtain rfl := Option.some.inj hm
      omega
    obtain ⟨⟨text, span⟩, t, hp, h⟩ := bind_eq_ok_iff.mp h
    obtain ⟨hw, rfl⟩ := peekWord_of_ok hp
    cases hk : Keyword.ofText? text with
    | none =>
      simp only [hk] at h
      cases h
    | some keyword =>
      simp only [hk] at h
      obtain rfl := Keyword.ofText?_eq_some_iff.mp hk
      cases keyword with
      | operator op => exact sound_application hi within (by rw [hw]; rfl) h
      | letIn => exact sound_letBinding hi within (by rw [hw]; rfl) h

end Sound
end ParseM

/-! ### Completeness -/

namespace Expr

/-- The first lexeme of a tree at `level` with which an expression starts at level `n`. -/
def firstAt (n level : Nat) (e : Expr) (lexemes : List Lexeme) : Option Lexeme :=
  (((e.openings level).zip lexemes).find? (fun pair => pair.1 == some n)).map Prod.snd

/-- What the reader comes to on the lexemes of a tree at `level`, if it goes down to level `n`. -/
def outcome (n level : Nat) (e : Expr) (lexemes : List Lexeme) : Except ParseError Expr :=
  match e.firstAt n level lexemes with
  | none => .ok e
  | some lexeme => .error (.tooDeep lexeme.span)

section

variable {n level : Nat} {lexemes lhsLexemes rhsLexemes : List Lexeme} {lhs rhs : Expr}

theorem eq_of_outcome {e e' : Expr} (h : e.outcome n level lexemes = .ok e') : e' = e := by
  unfold outcome at h
  split at h <;> cases h
  rfl

theorem find?_zip_append {p : Option Nat × Lexeme → Bool} {marks marks' : List (Option Nat)}
    (h : marks.length = lhsLexemes.length) :
    ((marks ++ marks').zip (lhsLexemes ++ rhsLexemes)).find? p =
      ((marks.zip lhsLexemes).find? p).or ((marks'.zip rhsLexemes).find? p) := by
  rw [List.zip_append h, List.find?_append]

theorem find?_zip_replicate (signs : List Lexeme) :
    ((List.replicate signs.length none).zip signs).find? (fun pair => pair.1 == some n) = none := by
  refine List.find?_eq_none.mpr fun pair hp => ?_
  obtain ⟨mark, sign⟩ := pair
  obtain rfl := List.eq_of_mem_replicate (List.of_mem_zip hp).1
  simp

/-- A tree of two parts is read part by part: its first expression at level `n` is that of the first
part that has one. -/
theorem outcome_of_parts (make : Expr → Expr → Expr) (signs : List Lexeme)
    (he : (make lhs rhs).openings level = some level :: (List.replicate signs.length none ++
      (lhs.openings (level + 1) ++ none :: (rhs.openings (level + 1) ++ [none]))))
    (hl : lhsLexemes.map Lexeme.token = lhs.tokens) (hr : rhsLexemes.map Lexeme.token = rhs.tokens)
    (hn : level < n) (word comma closing : Lexeme) :
    (make lhs rhs).outcome n level (word :: (signs ++ (lhsLexemes ++ comma :: (rhsLexemes ++ [closing])))) =
      (lhs.outcome n (level + 1) lhsLexemes >>= fun l =>
        rhs.outcome n (level + 1) rhsLexemes >>= fun r => .ok (make l r)) := by
  have ll : (lhs.openings (level + 1)).length = lhsLexemes.length := by
    rw [length_openings, ← hl, List.length_map]
  have lr : (rhs.openings (level + 1)).length = rhsLexemes.length := by
    rw [length_openings, ← hr, List.length_map]
  -- the expression that starts with `word` is at `level`, and the signs behind it start none
  have hne : (some level == some n) = false := by simpa using Nat.ne_of_lt hn
  have first : (make lhs rhs).firstAt n level
      (word :: (signs ++ (lhsLexemes ++ comma :: (rhsLexemes ++ [closing])))) =
      (lhs.firstAt n (level + 1) lhsLexemes).or (rhs.firstAt n (level + 1) rhsLexemes) := by
    simp only [firstAt, he, List.zip_cons_cons, List.find?_cons, hne,
      find?_zip_append (List.length_replicate (n := signs.length)), find?_zip_replicate, find?_zip_append ll,
      find?_zip_append lr]
    simp [Option.map_or]
  unfold outcome
  rw [first]
  cases lhs.firstAt n (level + 1) lhsLexemes with
  | some lexeme => rfl
  | none => cases rhs.firstAt n (level + 1) rhsLexemes <;> rfl

end

end Expr

namespace ParseM

section Complete

variable {n level : Nat} {inner : Scope → Nat → ParseM Expr}

/-- Tokens that are derived are read, up to the first expression at level `n`. -/
def Complete (n : Nat) (symbol : Symbol) (level : Nat) (read : Scope → Nat → ParseM Expr) : Prop :=
  ∀ scope place lexemes e, Derives none symbol scope place level (lexemes.map Lexeme.token) e →
    Gives (read scope place) lexemes (e.outcome n level lexemes)

theorem complete_operand (hi : Complete n .expression level inner) :
    Complete n .operand level (operand inner) := by
  intro scope place lexemes e h
  generalize ht : lexemes.map Lexeme.token = tokens at h
  cases h with
  | integer value =>
    obtain ⟨lexeme, rfl, hl⟩ := List.map_eq_singleton_iff.mp ht
    refine Gives.peek ?_
    rw [hl]
    exact (gives_advance lexeme).andThen (gives_pure _)
  | @name _ _ _ name shared free visible =>
    obtain ⟨lexeme, rfl, hl⟩ := List.map_eq_singleton_iff.mp ht
    refine Gives.peek ?_
    simp only [hl, free, visible]
    exact (gives_advance lexeme).andThen (gives_pure _)
  | expression hd =>
    obtain ⟨keyword, rest, rfl⟩ := hd.expression_head
    obtain ⟨lexeme, lexemes, rfl, hl, hr⟩ := List.map_eq_cons_iff.mp ht
    refine Gives.peek ?_
    simp only [hl, Keyword.ofText?_text]
    exact hi scope place _ e (by rw [ht]; exact hd)

theorem gives_application (hi : Complete n .expression (level + 1) inner) {op : Operator} {scope : Scope}
    {place : Nat} {lexemes : List Lexeme} {lhsTokens rhsTokens : List Token} {lhs rhs : Expr} (hn : level < n)
    (left : Derives none .operand scope (place + 1) (level + 1) lhsTokens lhs)
    (right : Derives none .operand scope (place + 1 + lhs.nodeCount) (level + 1) rhsTokens rhs)
    (ht : lexemes.map Lexeme.token =
      .word op.word :: .openParen :: (lhsTokens ++ .comma :: (rhsTokens ++ [.closeParen]))) :
    Gives (application inner op scope place) lexemes ((Expr.binary op lhs rhs).outcome n level lexemes) := by
  obtain ⟨word, opening, comma, closing, lhsLexemes, rhsLexemes, rfl, t₁, t₂, tl, t₃, tr, t₄⟩ :=
    exists_lexemes_application ht
  have parts := Expr.outcome_of_parts (Expr.binary op) [opening] rfl (tl.trans left.tokens_eq)
    (tr.trans right.tokens_eq) hn word comma closing
  subst tl tr
  refine Eq.subst (motive := Gives _ _) parts.symm ?_
  refine (gives_expect (by rw [t₁]; rfl)).andThen ?_
  refine (gives_expect (by rw [t₂]; rfl)).andThen ?_
  refine (complete_operand hi _ _ _ _ left).bind fun l hl => ?_
  obtain rfl := Expr.eq_of_outcome hl
  refine (gives_expect (by rw [t₃]; rfl)).andThen ?_
  refine (complete_operand hi _ _ _ _ right).bind fun r hr => ?_
  obtain rfl := Expr.eq_of_outcome hr
  refine (gives_expect (by rw [t₄]; rfl)).andThen ?_
  exact gives_pure _

theorem gives_letBinding (hi : Complete n .expression (level + 1) inner) {scope : Scope} {place : Nat}
    {name : String} {lexemes : List Lexeme} {boundTokens bodyTokens : List Token} {bound body : Expr}
    (hn : level < n) (free : Keyword.ofText? name = none) (fresh : scope.contains name = false)
    (value : Derives none .operand scope (place + 1) (level + 1) boundTokens bound)
    (inside : Derives none .expression (scope.bind name ⟨place + 1, bound⟩) (place + 1 + bound.nodeCount)
      (level + 1) bodyTokens body)
    (ht : lexemes.map Lexeme.token = .word "let" :: .openParen :: .word name :: .comma ::
      (boundTokens ++ .comma :: (bodyTokens ++ [.closeParen]))) :
    Gives (letBinding inner scope place) lexemes ((Expr.letIn name bound body).outcome n level lexemes) := by
  obtain ⟨word, opening, named, comma, comma', closing, boundLexemes, bodyLexemes, rfl, t₁, t₂, t₃, t₄, tb,
    t₅, te, t₆⟩ := exists_lexemes_letIn ht
  have parts := Expr.outcome_of_parts (Expr.letIn name) [opening, named, comma] rfl (tb.trans value.tokens_eq)
    (te.trans inside.tokens_eq) hn word comma' closing
  subst tb te
  refine Eq.subst (motive := Gives _ _) parts.symm ?_
  refine (gives_expect (by rw [t₁]; rfl)).andThen ?_
  refine (gives_expect (by rw [t₂]; rfl)).andThen ?_
  refine (gives_newName t₃ free fresh).andThen ?_
  refine (gives_expect (by rw [t₄]; rfl)).andThen ?_
  refine (complete_operand hi _ _ _ _ value).bind fun b hb => ?_
  obtain rfl := Expr.eq_of_outcome hb
  refine (gives_expect (by rw [t₅]; rfl)).andThen ?_
  refine (gives_recordBound name _).andThen ?_
  refine (hi _ _ _ _ inside).bind fun e he => ?_
  obtain rfl := Expr.eq_of_outcome he
  refine (gives_expect (by rw [t₆]; rfl)).andThen ?_
  exact gives_pure _

/-- The first lexeme of an expression that has no levels left is the one that is too deep. -/
theorem outcome_of_no_levels {scope : Scope} {place : Nat} {tokens : List Token} {e : Expr}
    (h : Derives none .expression scope place level tokens e) (lexeme : Lexeme) (lexemes : List Lexeme) :
    e.outcome level level (lexeme :: lexemes) = .error (.tooDeep lexeme.span) := by
  cases h <;> simp [Expr.outcome, Expr.firstAt, Expr.openings]

/-- By induction on the levels that are left. -/
theorem complete_expression : ∀ {levels level : Nat}, level + levels = n →
    Complete n .expression level (expression levels)
  | 0, level, hn => by
    intro scope place lexemes e h
    -- no level is left, and the reader stops at the word that it sees, without taking it
    obtain rfl : level = n := hn
    generalize ht : lexemes.map Lexeme.token = tokens at h
    obtain ⟨keyword, rest, rfl⟩ := h.expression_head
    obtain ⟨lexeme, lexemes, rfl, hl, -⟩ := List.map_eq_cons_iff.mp ht
    rw [outcome_of_no_levels h]
    exact Gives.peekWord hl (gives_throw _)
  | levels + 1, level, hn => by
    intro scope place lexemes e h
    have hi : Complete n .expression (level + 1) (expression levels) := complete_expression (by omega)
    have lt : level < n := by omega
    generalize ht : lexemes.map Lexeme.token = tokens at h
    cases h with
    | application op within left right =>
      obtain ⟨lexeme, others, rfl, hl, -⟩ := List.map_eq_cons_iff.mp ht
      refine Gives.peekWord hl ?_
      have hk : Keyword.ofText? op.word = some (.operator op) := Keyword.ofText?_text (.operator op)
      simp only [hk]
      exact gives_application hi lt left right ht
    | letIn within free fresh value inside =>
      obtain ⟨lexeme, others, rfl, hl, -⟩ := List.map_eq_cons_iff.mp ht
      refine Gives.peekWord hl ?_
      have hk : Keyword.ofText? "let" = some .letIn := Keyword.ofText?_text .letIn
      simp only [hk]
      exact gives_letBinding hi lt free fresh value inside ht

end Complete
end ParseM
end LetArith
