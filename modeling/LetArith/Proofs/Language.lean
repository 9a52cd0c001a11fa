import LetArith.Proofs.Parsing
import LetArith.Proofs.Printing
import Mathlib.Data.List.Basic

/-!
# LetArith.Proofs.Language — which texts are programs

The reader of whole texts, from the first token to the end of the input.

* `Expr.parse_eq_ok_iff`: the trees of a text are those that are derived from its tokens, within the
  limit.
* `Expr.parse_eq_outcome`: a text whose tokens are derived without the limit is read up to the first
  expression that stands too deep, which is where the error points.
* `parse_decides_language`: both together, that there is no other tree, and what the scopes and words of
  the derivations mean.
-/

namespace LetArith

open Grammar

/-! ### Programs -/

namespace ParseM

/-- A program is derived from the tokens before the end of the text. -/
theorem program_of_ok {s s' : ParseState} {e : Expr} (h : program s = .ok e s') :
    ∃ lexemes last, s.ahead.Reads (lexemes ++ [last]) s'.ahead ∧ last.token = .endOfInput ∧
      Program (some maxDepth) (lexemes.map Lexeme.token) e := by
  obtain ⟨found, t, hp, h⟩ := bind_eq_ok_iff.mp h
  obtain ⟨rfl, rfl⟩ := peek_eq_ok_iff.mp hp
  split at h
  · obtain ⟨tree, s₁, h₁, h⟩ := bind_eq_ok_iff.mp h
    obtain ⟨last, s₂, h₂, h⟩ := bind_eq_ok_iff.mp h
    obtain ⟨rfl, rfl⟩ := pure_eq_ok_iff.mp h
    obtain ⟨lexemes, taken, derived⟩ := sound_expression (Nat.zero_add maxDepth) _ _ _ _ _ h₁
    obtain ⟨last, ending, hl⟩ := reads_of_expect .endOfInput (by decide) h₂
    exact ⟨lexemes, last, taken.append ending, hl, derived⟩
  · cases h

theorem gives_program {lexemes : List Lexeme} {last : Lexeme} {e : Expr}
    (h : Program none (lexemes.map Lexeme.token) e) (hl : last.token = .endOfInput) :
    Gives program (lexemes ++ [last]) (e.outcome maxDepth 0 lexemes) := by
  -- behind a tree only the end is taken, so that the outcome of the tree is that of the program
  have body : Gives (expression maxDepth .empty 0 >>= fun e => expect .endOfInput >>= fun _ => pure e)
      (lexemes ++ [last]) (e.outcome maxDepth 0 lexemes >>= .ok) := by
    refine (complete_expression (Nat.zero_add maxDepth) _ _ _ _ h).bind fun tree _ => ?_
    exact (gives_expect (by rw [hl]; rfl)).andThen (gives_pure tree)
  have same : (e.outcome maxDepth 0 lexemes >>= .ok) = e.outcome maxDepth 0 lexemes := by
    cases e.outcome maxDepth 0 lexemes <;> rfl
  obtain ⟨keyword, rest, ht⟩ := h.expression_head
  obtain ⟨first, others, rfl, hf, -⟩ := List.map_eq_cons_iff.mp ht
  refine Gives.peek ?_
  rw [if_pos (by rw [hf]; rfl), ← same]
  exact body

end ParseM

/-! ### The first expression that stands too deep -/

namespace Expr

variable {n level : Nat} {lexemes : List Lexeme} {lexeme : Lexeme} {e : Expr}

/-- Of the lexemes of a tree at `level`, it is the leftmost one with which an expression starts at level
`n`. -/
def IsLeftmostAt (n level : Nat) (e : Expr) (lexemes : List Lexeme) (lexeme : Lexeme) : Prop :=
  ∃ k : Nat, lexemes[k]? = some lexeme ∧ (e.openings level)[k]? = some (some n) ∧
    ∀ j < k, (e.openings level)[j]? ≠ some (some n)

theorem isLeftmostAt_of_firstAt (h : e.firstAt n level lexemes = some lexeme) :
    e.IsLeftmostAt n level lexemes lexeme := by
  obtain ⟨⟨mark, found⟩, hf, rfl⟩ := Option.map_eq_some_iff.mp h
  obtain ⟨hp, k, hk, heq, before⟩ := List.find?_eq_some_iff_getElem.mp hf
  obtain rfl : mark = some n := by simpa using hp
  obtain ⟨hm, hl⟩ := List.getElem?_zip_eq_some.mp (List.getElem?_eq_some_iff.mpr ⟨hk, heq⟩)
  refine ⟨k, hl, hm, fun j hj hopen => ?_⟩
  obtain ⟨hjl, mark⟩ := List.getElem?_eq_some_iff.mp hopen
  have other := before j hj
  rw [List.getElem_zip, mark] at other
  simp at other

theorem IsLeftmostAt.exists_keyword (hl : lexemes.map Lexeme.token = e.tokens)
    (h : e.IsLeftmostAt n level lexemes lexeme) : ∃ keyword, lexeme.token = .word (Keyword.text keyword) := by
  obtain ⟨k, hk, mark, -⟩ := h
  have token : e.tokens[k]? = some lexeme.token := by rw [← hl, List.getElem?_map, hk]; rfl
  have both : ((e.openings level).zip e.tokens)[k]? = some (some n, lexeme.token) :=
    List.getElem?_zip_eq_some.mpr ⟨mark, token⟩
  exact e.exists_keyword_of_mem_zip (List.mem_of_getElem? both)

/-- There is one if the tree nests to that level. -/
theorem firstAt_eq_none_iff (hl : lexemes.map Lexeme.token = e.tokens) :
    e.firstAt n level lexemes = none ↔ ¬(level ≤ n ∧ n < level + e.nesting) := by
  have same : (e.openings level).length = lexemes.length := by rw [length_openings, ← hl, List.length_map]
  rw [← mem_openings_iff, firstAt, Option.map_eq_none_iff, List.find?_eq_none]
  constructor
  · intro h hm
    obtain ⟨k, hk, heq⟩ := List.mem_iff_getElem.mp hm
    have hz : k < ((e.openings level).zip lexemes).length := by rw [List.length_zip]; omega
    have other := h _ (List.getElem_mem hz)
    rw [List.getElem_zip, heq] at other
    simp at other
  · rintro h ⟨mark, found⟩ hp hmark
    obtain rfl : mark = some n := by simpa using hmark
    exact h (List.of_mem_zip hp).1

/-! ### Texts -/

theorem exists_program_of_parse {text : String} (h : parse text = .ok e) :
    ∃ a s, Lookahead.ofCursor (.ofString text) = .ok a ∧ ParseM.program ⟨a, #[]⟩ = .ok e s := by
  unfold parse parseRecorded at h
  split at h
  · cases h
  · next a ha =>
    split at h
    · next tree s hs =>
      cases h
      exact ⟨a, s, ha, hs⟩
    · cases h

theorem parse_eq_of_endsIn {text : String} {a b : Lookahead} {r : Except ParseError Expr}
    (ha : Lookahead.ofCursor (.ofString text) = .ok a) (h : ParseM.EndsIn b (ParseM.program ⟨a, #[]⟩) r) :
    parse text = r := by
  unfold parse parseRecorded
  rw [ha]
  dsimp only
  cases hs : ParseM.program ⟨a, #[]⟩ with
  | ok tree s =>
    rw [hs] at h
    cases h
    rfl
  | error err s =>
    rw [hs] at h
    cases h
    rfl

/-- A text whose tokens are derived without the limit is read, or is too deep. -/
theorem parse_eq_outcome {text : String} (ht : tokenize text = .ok lexemes)
    (h : Program none (lexemes.map Lexeme.token) e) : parse text = e.outcome maxDepth 0 lexemes := by
  obtain ⟨-, a, b, last, ha, hr, hl⟩ := Lookahead.tokens_eq_ok_iff.mp ht
  exact parse_eq_of_endsIn ha (ParseM.gives_program h hl ⟨a, #[]⟩ b hr)

/-- The trees of a text are those that are derived from its tokens. -/
theorem parse_eq_ok_iff {text : String} :
    parse text = .ok e ↔
      ∃ lexemes, tokenize text = .ok lexemes ∧ Program (some maxDepth) (lexemes.map Lexeme.token) e := by
  constructor
  · intro h
    obtain ⟨a, s, ha, hs⟩ := exists_program_of_parse h
    obtain ⟨lexemes, last, hr, hl, derived⟩ := ParseM.program_of_ok hs
    have inner : ∀ lexeme ∈ lexemes, lexeme.token ≠ .endOfInput := fun lexeme hm hend =>
      derived.endOfInput_notMem (hend ▸ List.mem_map_of_mem hm)
    exact ⟨lexemes, Lookahead.tokens_eq_ok_iff.mpr ⟨inner, a, s.ahead, last, ha, hr, hl⟩, derived⟩
  · rintro ⟨lexemes, ht, derived⟩
    have within := derived.nesting_le (Nat.zero_le maxDepth)
    have none : e.firstAt maxDepth 0 lexemes = none :=
      (firstAt_eq_none_iff derived.tokens_eq).mpr (by omega)
    rw [parse_eq_outcome ht derived.unlimited, outcome, none]

/-- A text whose tokens nest beyond the limit is too deep where they first do. -/
theorem parse_of_lt_nesting {text : String} (ht : tokenize text = .ok lexemes)
    (h : Program none (lexemes.map Lexeme.token) e) (deep : maxDepth < e.nesting) :
    ∃ lexeme keyword, e.IsLeftmostAt maxDepth 0 lexemes lexeme ∧ lexeme.token = .word (Keyword.text keyword) ∧
      parse text = .error (.tooDeep lexeme.span) := by
  cases hf : e.firstAt maxDepth 0 lexemes with
  | none => exact absurd ((firstAt_eq_none_iff h.tokens_eq).mp hf) (by omega)
  | some lexeme =>
    have leftmost := isLeftmostAt_of_firstAt hf
    obtain ⟨keyword, hk⟩ := leftmost.exists_keyword h.tokens_eq
    exact ⟨lexeme, keyword, leftmost, hk, by rw [parse_eq_outcome ht h, outcome, hf]⟩

end Expr

/-! ### The language -/

/-- The reader accepts the language.  A text is read as a tree exactly if the tree is derived from its
tokens within the limit, and no other tree is.  A text that is only too deep is refused as too deep, at
the leftmost word with which an expression starts at the level of the limit.  What is derived within the
limit is what is derived without it and does not nest beyond it.  In these derivations a name stands for
the operand that it was bound to last, the names that stand for something are the visible ones, and the
words of the operators and `let` are reserved. -/
theorem parse_decides_language (text : String) :
    (∀ e, Expr.parse text = .ok e ↔
      ∃ lexemes, tokenize text = .ok lexemes ∧ Program (some maxDepth) (lexemes.map Lexeme.token) e) ∧
    (∀ limit limit' tokens d e, Program limit tokens d → Program limit' tokens e → d = e) ∧
    (∀ lexemes e, tokenize text = .ok lexemes → Program none (lexemes.map Lexeme.token) e →
      maxDepth < e.nesting →
      ∃ lexeme keyword, e.IsLeftmostAt maxDepth 0 lexemes lexeme ∧
        lexeme.token = .word (Keyword.text keyword) ∧
        Expr.parse text = .error (.tooDeep lexeme.span)) ∧
    (∀ tokens e, Program (some maxDepth) tokens e ↔ Program none tokens e ∧ e.nesting ≤ maxDepth) ∧
    (∀ (scope : Scope) name other operand, Scope.empty.lookup? name = none ∧
      (scope.bind name operand).lookup? other = (if name = other then some operand else scope.lookup? other) ∧
      (scope.contains name = true ↔ ∃ operand, scope.lookup? name = some operand)) ∧
    (∀ word, Keyword.ofText? word = none ↔ word ∉ ["add", "sub", "mult", "div", "let"]) ∧
    [Operator.add, .sub, .mul, .div].map Operator.word = ["add", "sub", "mult", "div"] := by
  refine ⟨fun e => Expr.parse_eq_ok_iff, fun limit limit' tokens d e hd he => ?_,
    fun lexemes e ht h deep => ?_, fun tokens e => ?_, fun scope name other operand => ?_,
    fun word => Keyword.ofText?_eq_none_iff, rfl⟩
  · exact hd.unique he
  · exact Expr.parse_of_lt_nesting ht h deep
  · have within : Program (some maxDepth) tokens e ↔ Program none tokens e ∧ 0 + e.nesting ≤ maxDepth :=
      derives_some_iff (Nat.zero_le maxDepth)
    rwa [Nat.zero_add] at within
  · refine ⟨Scope.lookup?_empty name, scope.lookup?_bind name other operand, ?_⟩
    rw [scope.contains_eq_isSome, Option.isSome_iff_exists]

/-! Towers of additions stand on both sides of the limit. -/

/-- An addition with `levels` additions inside one another on its left. -/
def Expr.tower : (levels : Nat) → Expr
  | 0 => .binary .add (.integer 1) (.integer 1)
  | levels + 1 => .binary .add (tower levels) (.integer 1)

theorem Expr.nesting_tower (levels : Nat) : (tower levels).nesting = levels + 1 := by
  induction levels with
  | zero => rfl
  | succ levels ih => simp [tower, nesting, ih, Nat.add_comm]

theorem Expr.named_tower (levels : Nat) : (tower levels).Named := by
  induction levels with
  | zero => exact ⟨trivial, trivial⟩
  | succ levels ih => exact ⟨ih, trivial⟩

theorem Grammar.derives_tower (levels : Nat) (scope : Scope) (place level : Nat) :
    Derives none .expression scope place level (Expr.tower levels).tokens (Expr.tower levels) := by
  induction levels generalizing place level with
  | zero => exact .application .add (by simp) (.integer 1) (.integer 1)
  | succ levels ih =>
    exact .application .add (by simp) (.expression (ih (place + 1) (level + 1))) (.integer 1)

/-- A tower as high as the limit is read, and the next one is not.  A name is visible in the body of its
`let`, where it cannot be bound again, and not outside. -/
theorem parse_tower :
    Expr.parse (Expr.tower 999).text = .ok (Expr.tower 999) ∧
      (∃ span, Expr.parse (Expr.tower 1000).text = .error (.tooDeep span)) ∧
      Expr.parse "let(a,1,add(a,2))" =
        .ok (.letIn "a" (.integer 1) (.binary .add (.var "a" 1 (.integer 1)) (.integer 2))) ∧
      (∀ lexemes e, tokenize "let(a,1,let(a,2,add(a,a)))" = .ok lexemes →
        ¬ Program (some maxDepth) (lexemes.map Lexeme.token) e) ∧
      ∀ lexemes e, tokenize "add(a,1)" = .ok lexemes →
        ¬ Program (some maxDepth) (lexemes.map Lexeme.token) e := by
  refine ⟨?_, ?_, ?_, fun lexemes e ht derived => ?_, fun lexemes e ht derived => ?_⟩
  · obtain ⟨lexemes, ht, same⟩ := Expr.tokenize_text _ (Expr.named_tower 999)
    have derived := Grammar.derives_tower 999 .empty 0 0
    have low : 0 + (Expr.tower 999).nesting ≤ maxDepth :=
      Nat.le_of_eq (by rw [Nat.zero_add, Expr.nesting_tower]; rfl)
    exact ((parse_decides_language _).1 _).mpr ⟨lexemes, ht, same ▸ derived.limited low⟩
  · obtain ⟨lexemes, ht, same⟩ := Expr.tokenize_text _ (Expr.named_tower 1000)
    have derived := Grammar.derives_tower 1000 .empty 0 0
    have high : maxDepth < (Expr.tower 1000).nesting := by
      rw [Expr.nesting_tower]; exact Nat.lt_succ_self 1000
    obtain ⟨lexeme, keyword, -, -, deep⟩ :=
      (parse_decides_language _).2.2.1 lexemes _ ht (same ▸ derived) high
    exact ⟨lexeme.span, deep⟩
  · have scanned : tokenize "let(a,1,add(a,2))" = .ok [⟨.word "let", ⟨0, 3⟩⟩, ⟨.openParen, ⟨3, 4⟩⟩,
        ⟨.word "a", ⟨4, 5⟩⟩, ⟨.comma, ⟨5, 6⟩⟩, ⟨.integer 1, ⟨6, 7⟩⟩, ⟨.comma, ⟨7, 8⟩⟩, ⟨.word "add", ⟨8, 11⟩⟩,
        ⟨.openParen, ⟨11, 12⟩⟩, ⟨.word "a", ⟨12, 13⟩⟩, ⟨.comma, ⟨13, 14⟩⟩, ⟨.integer 2, ⟨14, 15⟩⟩,
        ⟨.closeParen, ⟨15, 16⟩⟩, ⟨.closeParen, ⟨16, 17⟩⟩] := by decide +kernel
    refine ((parse_decides_language _).1 _).mpr ⟨_, scanned, ?_⟩
    have sum : Derives (some maxDepth) .expression (Scope.empty.bind "a" ⟨1, .integer 1⟩) 2 1
        [.word "add", .openParen, .word "a", .comma, .integer 2, .closeParen]
        (.binary .add (.var "a" 1 (.integer 1)) (.integer 2)) :=
      .application .add (by simp [maxDepth]) (@Derives.name _ _ _ _ _ ⟨1, .integer 1⟩ (by decide) rfl)
        (.integer 2)
    exact .letIn (by simp [maxDepth]) (by decide) rfl (.integer 1) sum
  · have again : Expr.parse "let(a,1,let(a,2,add(a,a)))" = .error (.redeclaration "a" ⟨12, 13⟩) := by
      decide +kernel
    have read := ((parse_decides_language _).1 e).mpr ⟨lexemes, ht, derived⟩
    cases again.symm.trans read
  · have unknown : Expr.parse "add(a,1)" = .error (.unboundVariable "a" ⟨4, 5⟩) := by decide +kernel
    have read := ((parse_decides_language _).1 e).mpr ⟨lexemes, ht, derived⟩
    cases unknown.symm.trans read

end LetArith
