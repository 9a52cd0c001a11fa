import LetArith.Expr.ParseError
import LetArith.Keyword
import LetArith.Scope
import LetArith.Token

/-!
# LetArith.Proofs.Grammar — the language as a grammar with scopes

The rules of the language, without a reader: which lists of tokens are an expression or an operand in a
scope, and of which tree.  `level` counts the expressions around the tree, and `limit`, if there is one,
bounds the levels at which expressions may stand.  `place` is where the tree starts in the text, counted
in nodes.

* `Scope.Matches`: a scope beside another list of the same names, with what is known of them.
* `Derives.tokens_eq`: a tree is derived from the tokens that it is written with, and from no others.
* `Derives.unique`: no list of tokens starts with two different operands, or with two different
  expressions.
* `derives_some_iff`: the limit matters only for the nesting of the tree.
* `Expr.mem_openings_iff`: at which levels expressions start in a tree.
-/

namespace LetArith

/-! ### Scopes beside other lists of names -/

namespace Scope

variable {α : Type} {R : α → Expr → Prop} {known : List (String × α)} {scope : Scope} {name : String} {a : α}
  {shared : Operand}

/-- The same names are known and visible, and what is known of a name is related to the operand that it
stands for. -/
def Matches (R : α → Expr → Prop) (known : List (String × α)) (scope : Scope) : Prop :=
  ∀ name, Option.Rel R (known.lookup name) ((scope.lookup? name).map Operand.expr)

theorem matches_empty : Matches R [] empty := fun _ => .none

theorem Matches.bind (h : Matches R known scope) (name : String) (ha : R a shared.expr) :
    Matches R ((name, a) :: known) (scope.bind name shared) := by
  intro other
  rw [List.lookup_cons, lookup?_bind]
  by_cases hn : name = other
  · subst hn
    simpa using Option.Rel.some ha
  · rw [if_neg hn, beq_false_of_ne (Ne.symm hn)]
    exact h other

theorem Matches.exists_known (h : Matches R known scope) (visible : scope.lookup? name = some shared) :
    ∃ a, known.lookup name = some a ∧ R a shared.expr := by
  have related := h name
  rw [visible] at related
  cases hk : known.lookup name <;> rw [hk] at related <;> cases related
  next ha => exact ⟨_, rfl, ha⟩

theorem Matches.exists_visible (h : Matches R known scope) (found : known.lookup name = some a) :
    ∃ shared, scope.lookup? name = some shared ∧ R a shared.expr := by
  have related := h name
  rw [found] at related
  cases hs : scope.lookup? name <;> rw [hs] at related <;> cases related
  next ha => exact ⟨_, rfl, ha⟩

theorem Matches.lookup_eq_none_iff (h : Matches R known scope) :
    known.lookup name = none ↔ scope.contains name = false := by
  have related := h name
  rw [contains_eq_isSome]
  cases hk : known.lookup name <;> cases hs : scope.lookup? name <;> rw [hk, hs] at related <;>
    cases related <;> simp

end Scope

/-! ### Trees as they are written -/

namespace Expr

/-- The tokens that a tree is written with. -/
def tokens : Expr → List Token
  | integer value => [.integer value]
  | binary op lhs rhs =>
    .word op.word :: .openParen :: (lhs.tokens ++ .comma :: (rhs.tokens ++ [.closeParen]))
  | letIn name bound body =>
    .word "let" :: .openParen :: .word name :: .comma ::
      (bound.tokens ++ .comma :: (body.tokens ++ [.closeParen]))
  | var name _ _ => [.word name]

/-- The most operators and `let`s that stand inside one another.  What a variable stands for does not
count. -/
def nesting : Expr → Nat
  | integer _ => 0
  | binary _ lhs rhs => 1 + max lhs.nesting rhs.nesting
  | letIn _ bound body => 1 + max bound.nesting body.nesting
  | var _ _ _ => 0

/-- For each token of a tree at `level`: the level of the expression that starts with it, if one does. -/
def openings (level : Nat) : Expr → List (Option Nat)
  | integer _ => [none]
  | binary _ lhs rhs =>
    some level :: none :: (lhs.openings (level + 1) ++ none :: (rhs.openings (level + 1) ++ [none]))
  | letIn _ bound body =>
    some level :: none :: none :: none ::
      (bound.openings (level + 1) ++ none :: (body.openings (level + 1) ++ [none]))
  | var _ _ _ => [none]

theorem length_openings (e : Expr) (level : Nat) : (e.openings level).length = e.tokens.length := by
  induction e generalizing level with
  | integer value => rfl
  | binary op lhs rhs ihl ihr => simp [openings, tokens, ihl, ihr]
  | letIn name bound body ihb ihe => simp [openings, tokens, ihb, ihe]
  | var name place operand _ => rfl

/-- Expressions start at every level from that of the tree on, as deep as it nests. -/
theorem mem_openings_iff (e : Expr) {level n : Nat} :
    some n ∈ e.openings level ↔ level ≤ n ∧ n < level + e.nesting := by
  induction e generalizing level with
  | integer value => simp [openings, nesting]
  | binary op lhs rhs ihl ihr =>
    simp only [openings, nesting, List.mem_cons, List.mem_append, ihl, ihr, Option.some.injEq, reduceCtorEq,
      List.not_mem_nil, or_false, false_or]
    omega
  | letIn name bound body ihb ihe =>
    simp only [openings, nesting, List.mem_cons, List.mem_append, ihb, ihe, Option.some.injEq, reduceCtorEq,
      List.not_mem_nil, or_false, false_or]
    omega
  | var name place operand _ => simp [openings, nesting]

/-- Expressions start with reserved words. -/
theorem exists_keyword_of_mem_zip (e : Expr) {level n : Nat} {token : Token}
    (h : (some n, token) ∈ (e.openings level).zip e.tokens) :
    ∃ keyword, token = .word (Keyword.text keyword) := by
  induction e generalizing level with
  | integer value => simp [openings, tokens] at h
  | binary op lhs rhs ihl ihr =>
    simp only [openings, tokens, List.zip_cons_cons, List.zip_append (length_openings _ _),
      List.zip_nil_right, List.mem_cons, List.mem_append, List.not_mem_nil, Prod.mk.injEq, reduceCtorEq,
      false_and, false_or, or_false] at h
    rcases h with ⟨-, rfl⟩ | left | right
    · exact ⟨.operator op, rfl⟩
    · exact ihl left
    · exact ihr right
  | letIn name bound body ihb ihe =>
    simp only [openings, tokens, List.zip_cons_cons, List.zip_append (length_openings _ _),
      List.zip_nil_right, List.mem_cons, List.mem_append, List.not_mem_nil, Prod.mk.injEq, reduceCtorEq,
      false_and, false_or, or_false] at h
    rcases h with ⟨-, rfl⟩ | value | inside
    · exact ⟨.letIn, rfl⟩
    · exact ihb value
    · exact ihe inside
  | var name place operand _ => simp [openings, tokens] at h

end Expr

/-! ### Derivations -/

namespace Grammar

/-- What is derived. -/
inductive Symbol
  | expression
  | operand

/-- The tokens are a `symbol` of the language, which is the tree `e`. -/
inductive Derives (limit : Option Nat) : Symbol → Scope → (place level : Nat) → List Token → Expr → Prop
  | integer {scope : Scope} {place level : Nat} (value : Int32) :
      Derives limit .operand scope place level [.integer value] (.integer value)
  | name {scope : Scope} {place level : Nat} {name : String} {shared : Operand}
      (free : Keyword.ofText? name = none) (visible : scope.lookup? name = some shared) :
      Derives limit .operand scope place level [.word name] (.var name shared.place shared.expr)
  | expression {scope : Scope} {place level : Nat} {tokens : List Token} {e : Expr}
      (inner : Derives limit .expression scope place level tokens e) :
      Derives limit .operand scope place level tokens e
  | application {scope : Scope} {place level : Nat} {lhsTokens rhsTokens : List Token} {lhs rhs : Expr}
      (op : Operator) (within : ∀ n ∈ limit, level < n)
      (left : Derives limit .operand scope (place + 1) (level + 1) lhsTokens lhs)
      (right : Derives limit .operand scope (place + 1 + lhs.nodeCount) (level + 1) rhsTokens rhs) :
      Derives limit .expression scope place level
        (.word op.word :: .openParen :: (lhsTokens ++ .comma :: (rhsTokens ++ [.closeParen])))
        (.binary op lhs rhs)
  | letIn {scope : Scope} {place level : Nat} {name : String} {boundTokens bodyTokens : List Token}
      {bound body : Expr} (within : ∀ n ∈ limit, level < n)
      (free : Keyword.ofText? name = none) (fresh : scope.contains name = false)
      (operand : Derives limit .operand scope (place + 1) (level + 1) boundTokens bound)
      (inner : Derives limit .expression (scope.bind name ⟨place + 1, bound⟩)
        (place + 1 + bound.nodeCount) (level + 1) bodyTokens body) :
      Derives limit .expression scope place level
        (.word "let" :: .openParen :: .word name :: .comma ::
          (boundTokens ++ .comma :: (bodyTokens ++ [.closeParen]))) (.letIn name bound body)

/-- The tokens are a program: an expression outside all others, where no name is visible. -/
def Program (limit : Option Nat) (tokens : List Token) (e : Expr) : Prop :=
  Derives limit .expression .empty 0 0 tokens e

section

variable {limit : Option Nat} {symbol : Symbol} {scope : Scope} {place level : Nat} {tokens : List Token}
  {e : Expr}

theorem Derives.tokens_eq (h : Derives limit symbol scope place level tokens e) : tokens = e.tokens := by
  induction h with
  | integer value => rfl
  | name free visible => rfl
  | expression inner ih => exact ih
  | application op within left right ihl ihr => rw [ihl, ihr, Expr.tokens]
  | letIn within free fresh operand inner ihb ihe => rw [ihb, ihe, Expr.tokens]

/-- An expression starts with a reserved word and a parenthesis. -/
theorem Derives.expression_head (h : Derives limit .expression scope place level tokens e) :
    ∃ keyword rest, tokens = .word (Keyword.text keyword) :: .openParen :: rest := by
  cases h with
  | application op within left right => exact ⟨.operator op, _, rfl⟩
  | letIn within free fresh operand inner => exact ⟨.letIn, _, rfl⟩

theorem Derives.endOfInput_notMem (h : Derives limit symbol scope place level tokens e) :
    Token.endOfInput ∉ tokens := by
  induction h with
  | integer value => simp
  | name free visible => simp
  | expression inner ih => exact ih
  | application op within left right ihl ihr => simp [ihl, ihr]
  | letIn within free fresh operand inner ihb ihe => simp [ihb, ihe]

/-- One list of tokens cannot start with different trees: the first tree ends where the second does. -/
theorem Derives.unique (h : Derives limit symbol scope place level tokens e) :
    ∀ {limit' : Option Nat} {level' : Nat} {tokens' : List Token} {e' : Expr} {rest rest' : List Token},
      Derives limit' symbol scope place level' tokens' e' → tokens ++ rest = tokens' ++ rest' →
        e = e' ∧ rest = rest' := by
  induction h with
  | integer value =>
    intro limit' level' tokens' e' rest rest' h' heq
    cases h' with
    | integer value' =>
      obtain ⟨hv, hr⟩ := List.cons_eq_cons.mp heq
      exact ⟨by rw [Token.integer.inj hv], hr⟩
    | name free visible => cases heq
    | expression inner =>
      obtain ⟨keyword, tail, rfl⟩ := inner.expression_head
      cases heq
  | name free visible =>
    intro limit' level' tokens' e' rest rest' h' heq
    cases h' with
    | integer value' => cases heq
    | name free' visible' =>
      obtain ⟨hn, hr⟩ := List.cons_eq_cons.mp heq
      obtain rfl := Token.word.inj hn
      obtain rfl := Option.some.inj (visible.symm.trans visible')
      exact ⟨rfl, hr⟩
    | expression inner =>
      -- an expression starts with a reserved word, which is the name of no variable
      obtain ⟨keyword, tail, rfl⟩ := inner.expression_head
      obtain ⟨hn, -⟩ := List.cons_eq_cons.mp heq
      rw [Token.word.inj hn, Keyword.ofText?_text] at free
      cases free
  | expression inner ih =>
    intro limit' level' tokens' e' rest rest' h' heq
    cases h' with
    | integer value' =>
      obtain ⟨keyword, tail, rfl⟩ := inner.expression_head
      cases heq
    | name free' visible' =>
      obtain ⟨keyword, tail, rfl⟩ := inner.expression_head
      obtain ⟨hn, -⟩ := List.cons_eq_cons.mp heq
      rw [← Token.word.inj hn, Keyword.ofText?_text] at free'
      cases free'
    | expression inner' => exact ih inner' heq
  | @application scope place level lhsTokens rhsTokens lhs rhs op within left right ihl ihr =>
    intro limit' level' tokens' e' rest rest' h' heq
    cases h' with
    | application op' within' left' right' =>
      simp only [List.cons_append, List.append_assoc, List.cons.injEq, Token.word.injEq, true_and] at heq
      obtain ⟨hop, heq⟩ := heq
      have same := Keyword.text_injective (k := .operator op) (l := .operator op') hop
      obtain rfl := Keyword.operator.inj same
      obtain ⟨rfl, heq⟩ := ihl left' heq
      obtain ⟨rfl, heq⟩ := ihr right' (List.cons_eq_cons.mp heq).2
      exact ⟨rfl, (List.cons_eq_cons.mp heq).2⟩
    | letIn within' free' fresh' operand' inner' =>
      obtain ⟨hop, -⟩ := List.cons_eq_cons.mp heq
      exact absurd (Keyword.text_injective (k := .operator op) (l := .letIn) (Token.word.inj hop)) (by simp)
  | letIn within free fresh operand inner ihb ihe =>
    intro limit' level' tokens' e' rest rest' h' heq
    cases h' with
    | application op' within' left' right' =>
      obtain ⟨hop, -⟩ := List.cons_eq_cons.mp heq
      exact absurd (Keyword.text_injective (k := .letIn) (l := .operator op') (Token.word.inj hop)) (by simp)
    | letIn within' free' fresh' operand' inner' =>
      simp only [List.cons_append, List.append_assoc, List.cons.injEq, Token.word.injEq, true_and] at heq
      obtain ⟨rfl, heq⟩ := heq
      obtain ⟨rfl, heq⟩ := ihb operand' heq
      -- only now is the scope of the second body known to be that of the first
      obtain ⟨rfl, heq⟩ := ihe inner' (List.cons_eq_cons.mp heq).2
      exact ⟨rfl, (List.cons_eq_cons.mp heq).2⟩

/-- A list of tokens is at most one program. -/
theorem Program.unique {limit' : Option Nat} {d : Expr} (hd : Program limit tokens d)
    (he : Program limit' tokens e) :
    d = e :=
  (Derives.unique hd he (rfl : tokens ++ [] = tokens ++ [])).1

/-! ### Lexemes of an expression -/

/-- Lexemes with the tokens of an operator and its operands come apart into those of its parts. -/
theorem exists_lexemes_application {lexemes : List Lexeme} {op : Operator}
    {lhsTokens rhsTokens : List Token} (h : lexemes.map Lexeme.token =
      .word op.word :: .openParen :: (lhsTokens ++ .comma :: (rhsTokens ++ [.closeParen]))) :
    ∃ word opening comma closing lhsLexemes rhsLexemes,
      lexemes = word :: opening :: (lhsLexemes ++ comma :: (rhsLexemes ++ [closing])) ∧
      word.token = .word op.word ∧ opening.token = .openParen ∧ lhsLexemes.map Lexeme.token = lhsTokens ∧
      comma.token = .comma ∧ rhsLexemes.map Lexeme.token = rhsTokens ∧ closing.token = .closeParen := by
  obtain ⟨word, _, rfl, t₁, h⟩ := List.map_eq_cons_iff.mp h
  obtain ⟨opening, _, rfl, t₂, h⟩ := List.map_eq_cons_iff.mp h
  obtain ⟨lhsLexemes, _, rfl, tl, h⟩ := List.map_eq_append_iff.mp h
  obtain ⟨comma, _, rfl, t₃, h⟩ := List.map_eq_cons_iff.mp h
  obtain ⟨rhsLexemes, _, rfl, tr, h⟩ := List.map_eq_append_iff.mp h
  obtain ⟨closing, rfl, t₄⟩ := List.map_eq_singleton_iff.mp h
  exact ⟨word, opening, comma, closing, lhsLexemes, rhsLexemes, rfl, t₁, t₂, tl, t₃, tr, t₄⟩

/-- Lexemes with the tokens of a `let` come apart into those of its parts. -/
theorem exists_lexemes_letIn {lexemes : List Lexeme} {name : String} {boundTokens bodyTokens : List Token}
    (h : lexemes.map Lexeme.token = .word "let" :: .openParen :: .word name :: .comma ::
      (boundTokens ++ .comma :: (bodyTokens ++ [.closeParen]))) :
    ∃ word opening named comma comma' closing boundLexemes bodyLexemes,
      lexemes = word :: opening :: named :: comma ::
        (boundLexemes ++ comma' :: (bodyLexemes ++ [closing])) ∧
      word.token = .word "let" ∧ opening.token = .openParen ∧ named.token = .word name ∧
      comma.token = .comma ∧ boundLexemes.map Lexeme.token = boundTokens ∧ comma'.token = .comma ∧
      bodyLexemes.map Lexeme.token = bodyTokens ∧ closing.token = .closeParen := by
  obtain ⟨word, _, rfl, t₁, h⟩ := List.map_eq_cons_iff.mp h
  obtain ⟨opening, _, rfl, t₂, h⟩ := List.map_eq_cons_iff.mp h
  obtain ⟨named, _, rfl, t₃, h⟩ := List.map_eq_cons_iff.mp h
  obtain ⟨comma, _, rfl, t₄, h⟩ := List.map_eq_cons_iff.mp h
  obtain ⟨boundLexemes, _, rfl, tb, h⟩ := List.map_eq_append_iff.mp h
  obtain ⟨comma', _, rfl, t₅, h⟩ := List.map_eq_cons_iff.mp h
  obtain ⟨bodyLexemes, _, rfl, te, h⟩ := List.map_eq_append_iff.mp h
  obtain ⟨closing, rfl, t₆⟩ := List.map_eq_singleton_iff.mp h
  exact ⟨word, opening, named, comma, comma', closing, boundLexemes, bodyLexemes, rfl, t₁, t₂, t₃, t₄, tb,
    t₅, te, t₆⟩

/-! ### The limit -/

/-- Without the limit the same trees are derived. -/
theorem Derives.unlimited (h : Derives limit symbol scope place level tokens e) :
    Derives none symbol scope place level tokens e := by
  induction h with
  | integer value => exact .integer value
  | name free visible => exact .name free visible
  | expression inner ih => exact .expression ih
  | application op within left right ihl ihr => exact .application op (by simp) ihl ihr
  | letIn within free fresh operand inner ihb ihe => exact .letIn (by simp) free fresh ihb ihe

theorem Derives.nesting_le {n : Nat} (h : Derives (some n) symbol scope place level tokens e)
    (hl : level ≤ n) :
    level + e.nesting ≤ n := by
  induction h with
  | integer value => exact hl
  | name free visible => exact hl
  | expression inner ih => exact ih hl
  | @application scope place level _ _ _ _ op within left right ihl ihr =>
    have lt : level < n := within n rfl
    have deepl := ihl lt
    have deepr := ihr lt
    rw [Expr.nesting]
    omega
  | @letIn scope place level _ _ _ _ _ within free fresh operand inner ihb ihe =>
    have lt : level < n := within n rfl
    have deepb := ihb lt
    have deepe := ihe lt
    rw [Expr.nesting]
    omega

theorem Derives.limited {n : Nat} (h : Derives limit symbol scope place level tokens e)
    (hn : level + e.nesting ≤ n) :
    Derives (some n) symbol scope place level tokens e := by
  induction h with
  | integer value => exact .integer value
  | name free visible => exact .name free visible
  | expression inner ih => exact .expression (ih hn)
  | application op within left right ihl ihr =>
    rw [Expr.nesting] at hn
    refine .application op (fun m hm => ?_) (ihl (by omega)) (ihr (by omega))
    obtain rfl := Option.some.inj hm
    omega
  | letIn within free fresh operand inner ihb ihe =>
    rw [Expr.nesting] at hn
    refine .letIn (fun m hm => ?_) free fresh (ihb (by omega)) (ihe (by omega))
    obtain rfl := Option.some.inj hm
    omega

/-- A limit asks for nothing but that the tree does not nest beyond it. -/
theorem derives_some_iff {n : Nat} (hl : level ≤ n) :
    Derives (some n) symbol scope place level tokens e ↔
      Derives none symbol scope place level tokens e ∧ level + e.nesting ≤ n :=
  ⟨fun h => ⟨h.unlimited, h.nesting_le hl⟩, fun ⟨h, hn⟩ => h.limited hn⟩

end

end Grammar
end LetArith
