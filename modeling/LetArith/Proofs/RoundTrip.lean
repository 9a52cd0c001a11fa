import LetArith.Proofs.Language

/-!
# LetArith.Proofs.RoundTrip — which trees are read back as they are printed

A tree can be built that no text stands for: with a name that is no name, a variable of no `let`, or one
that stands for something else.  All other trees are well-formed, and they are the trees that come back
when they are printed and read.

* `wellScoped_of_derives`: what is derived is well-scoped, and so is a tree that says the same.
* `derives_of_wellScoped`: a well-scoped tree is derived from its own tokens, up to the places of its
  operands.
* `reads_back_iff_wellFormed`: a tree is read back exactly if it is well-formed, as every tree is that
  was read.
* `parse_keeps_tokens`: a tree that was read has the tokens of its text, and two texts have the same
  tree exactly if they have the same tokens.
-/

namespace LetArith

namespace Expr

/-! ### Well-formed trees -/

/-- The tree is an operator with its operands, or a `let`. -/
def IsCompound : Expr → Prop
  | integer _ => False
  | binary _ _ _ => True
  | letIn _ _ _ => True
  | var _ _ _ => False

/-- The tree may stand in the bodies of the enclosing `let`s, of which the nearest one comes first.  A
`let` has a new name, which is not reserved, and its body is no single integer or variable.  A variable
has an enclosing `let` of its name, and stands for the operand of that `let`. -/
def WellScoped (enclosing : List (String × Expr)) : Expr → Prop
  | integer _ => True
  | binary _ lhs rhs => lhs.WellScoped enclosing ∧ rhs.WellScoped enclosing
  | letIn name bound body => Token.IsName name ∧ Keyword.ofText? name = none ∧ enclosing.lookup name = none ∧
      bound.WellScoped enclosing ∧ body.IsCompound ∧ body.WellScoped ((name, bound) :: enclosing)
  | var name _ operand => ∃ bound, enclosing.lookup name = some bound ∧ Same operand bound

/-- The tree is one that a text can stand for. -/
structure WellFormed (e : Expr) : Prop where
  compound : e.IsCompound
  wellScoped : e.WellScoped []
  nesting_le : e.nesting ≤ maxDepth

/-- What holds of a new name and of all others holds of all. -/
theorem forall_lookup_cons {P : String → Prop} {enclosing : List (String × Expr)} {name : String}
    (bound : Expr) (new : P name) (h : ∀ other found, enclosing.lookup other = some found → P other) :
    ∀ other found, List.lookup other ((name, bound) :: enclosing) = some found → P other := by
  intro other found hf
  rw [List.lookup_cons] at hf
  split at hf
  · next same => rwa [eq_of_beq same]
  · exact h other found hf

/-- Every name that is written is that of a `let`. -/
theorem WellScoped.named {e : Expr} : ∀ {enclosing : List (String × Expr)}, e.WellScoped enclosing →
    (∀ name bound, enclosing.lookup name = some bound → Token.IsName name) → e.Named := by
  induction e with
  | integer value => exact fun _ _ => trivial
  | binary op lhs rhs ihl ihr => exact fun ⟨left, right⟩ names => ⟨ihl left names, ihr right names⟩
  | letIn name bound body ihb ihe =>
    intro enclosing ⟨isName, _, _, value, _, inside⟩ names
    exact ⟨isName, ihb value names, ihe inside (forall_lookup_cons bound isName names)⟩
  | var name place operand _ =>
    intro enclosing ⟨bound, found, _⟩ names
    exact names name bound found

namespace Same

theorem exists_binary {op : Operator} {lhs rhs : Expr} : ∀ {e : Expr}, Same (binary op lhs rhs) e →
    ∃ lhs' rhs', e = binary op lhs' rhs' ∧ Same lhs lhs' ∧ Same rhs rhs'
  | binary _ lhs' rhs', ⟨rfl, hl, hr⟩ => ⟨lhs', rhs', rfl, hl, hr⟩

theorem exists_letIn {name : String} {bound body : Expr} : ∀ {e : Expr}, Same (letIn name bound body) e →
    ∃ bound' body', e = letIn name bound' body' ∧ Same bound bound' ∧ Same body body'
  | letIn _ bound' body', ⟨rfl, hb, he⟩ => ⟨bound', body', rfl, hb, he⟩

theorem exists_var {name : String} {place : Nat} {operand : Expr} :
    ∀ {e : Expr}, Same (var name place operand) e →
    ∃ place' operand', e = var name place' operand' ∧ Same operand operand'
  | var _ place' operand', ⟨rfl, ho⟩ => ⟨place', operand', rfl, ho⟩

theorem nesting_eq : ∀ {d e : Expr}, Same d e → d.nesting = e.nesting
  | integer _, integer _, _ => rfl
  | binary _ _ _, binary _ _ _, ⟨_, hl, hr⟩ => by rw [nesting, nesting, nesting_eq hl, nesting_eq hr]
  | letIn _ _ _, letIn _ _ _, ⟨_, hb, he⟩ => by rw [nesting, nesting, nesting_eq hb, nesting_eq he]
  | var _ _ _, var _ _ _, _ => rfl

theorem tokens_eq : ∀ {d e : Expr}, Same d e → d.tokens = e.tokens
  | integer _, integer _, rfl => rfl
  | binary _ _ _, binary _ _ _, ⟨rfl, hl, hr⟩ => by rw [tokens, tokens, tokens_eq hl, tokens_eq hr]
  | letIn _ _ _, letIn _ _ _, ⟨rfl, hb, he⟩ => by rw [tokens, tokens, tokens_eq hb, tokens_eq he]
  | var _ _ _, var _ _ _, ⟨rfl, _⟩ => rfl

theorem isCompound : ∀ {d e : Expr}, Same d e → d.IsCompound → e.IsCompound
  | binary _ _ _, binary _ _ _, _, _ => trivial
  | letIn _ _ _, letIn _ _ _, _, _ => trivial

end Same
end Expr

/-! ### Scopes and enclosing `let`s -/

namespace Grammar

open LetArith.Expr

/-- The visible names are those of the enclosing `let`s, and stand for the same operands. -/
structure Mirrors (enclosing : List (String × Expr)) (scope : Scope) : Prop where
  operands : scope.Matches Same enclosing
  words : ∀ name bound, enclosing.lookup name = some bound → Token.IsName name ∧ Keyword.ofText? name = none

theorem mirrors_empty : Mirrors [] .empty := ⟨Scope.matches_empty, fun _ _ h => nomatch h⟩

variable {enclosing : List (String × Expr)} {scope : Scope}

theorem Mirrors.bind (h : Mirrors enclosing scope) {name : String} {bound : Expr} {operand : Operand}
    (same : Same bound operand.expr) (isName : Token.IsName name) (free : Keyword.ofText? name = none) :
    Mirrors ((name, bound) :: enclosing) (scope.bind name operand) :=
  ⟨h.operands.bind name same, forall_lookup_cons bound ⟨isName, free⟩ h.words⟩

/-! ### What is derived is well-scoped -/

theorem Derives.isCompound {limit : Option Nat} {place level : Nat} {tokens : List Token} {e : Expr}
    (h : Derives limit .expression scope place level tokens e) : e.IsCompound := by
  cases h <;> trivial

/-- By induction on the derivation, for all trees that say the same as the one that is derived. -/
theorem wellScoped_of_derives {limit : Option Nat} {symbol : Symbol} {place level : Nat} {tokens : List Token}
    {d : Expr} (h : Derives limit symbol scope place level tokens d) :
    ∀ {enclosing : List (String × Expr)} {e : Expr}, Mirrors enclosing scope →
      (∀ text, .word text ∈ tokens → Token.IsName text) → Same d e → e.WellScoped enclosing := by
  induction h with
  | integer value =>
    intro enclosing e mirrors names same
    cases e with
    | integer value' => trivial
    | _ => cases same
  | name free visible =>
    intro enclosing e mirrors names same
    obtain ⟨place', operand, rfl, ho⟩ := same.exists_var
    obtain ⟨bound, found, hb⟩ := mirrors.operands.exists_known visible
    exact ⟨bound, found, (hb.trans ho).symm⟩
  | expression inner ih => exact ih
  | application op within left right ihl ihr =>
    intro enclosing e mirrors names same
    obtain ⟨lhs, rhs, rfl, hl, hr⟩ := same.exists_binary
    exact ⟨ihl mirrors (fun text hm => names text (by simp [hm])) hl,
      ihr mirrors (fun text hm => names text (by simp [hm])) hr⟩
  | @letIn _ _ _ name _ _ _ _ within free fresh operand inner ihb ihe =>
    intro enclosing e mirrors names same
    obtain ⟨bound, body, rfl, hb, he⟩ := same.exists_letIn
    -- the name is one as a token of the text, and no enclosing `let` has it since the scope has not
    have isName : Token.IsName name := names name (by simp)
    have unknown := mirrors.operands.lookup_eq_none_iff.mpr fresh
    have compound := he.isCompound inner.isCompound
    refine ⟨isName, free, unknown, ?_, compound, ?_⟩
    · exact ihb mirrors (fun text hm => names text (by simp [hm])) hb
    · exact ihe (mirrors.bind hb.symm isName free) (fun text hm => names text (by simp [hm])) he

/-! ### What is well-scoped is derived -/

/-- By induction on the tree.  The places of its operands are those in the text. -/
theorem derives_of_wellScoped (e : Expr) (place level : Nat) (h : e.WellScoped enclosing)
    (mirrors : Mirrors enclosing scope) :
    ∃ d, Same d e ∧ Derives none .operand scope place level e.tokens d ∧
      (e.IsCompound → Derives none .expression scope place level e.tokens d) := by
  induction e generalizing enclosing scope place level with
  | integer value => exact ⟨.integer value, .refl _, .integer value, fun h => nomatch h⟩
  | binary op lhs rhs ihl ihr =>
    obtain ⟨left, right⟩ := h
    obtain ⟨l, samel, derivedl, -⟩ := ihl (place + 1) (level + 1) left mirrors
    obtain ⟨r, samer, derivedr, -⟩ := ihr (place + 1 + l.nodeCount) (level + 1) right mirrors
    have whole : Derives none .expression scope place level (binary op lhs rhs).tokens (.binary op l r) :=
      .application op (by simp) derivedl derivedr
    exact ⟨.binary op l r, ⟨rfl, samel, samer⟩, .expression whole, fun _ => whole⟩
  | letIn name bound body ihb ihe =>
    obtain ⟨isName, free, fresh, value, compound, inside⟩ := h
    obtain ⟨b, sameb, derivedb, -⟩ := ihb (place + 1) (level + 1) value mirrors
    have within : Mirrors ((name, bound) :: enclosing) (scope.bind name ⟨place + 1, b⟩) :=
      mirrors.bind sameb.symm isName free
    obtain ⟨e, samee, -, derivede⟩ := ihe (place + 1 + b.nodeCount) (level + 1) inside within
    have unknown := mirrors.operands.lookup_eq_none_iff.mp fresh
    have whole := Derives.letIn (by simp) free unknown derivedb (derivede compound)
    exact ⟨.letIn name b e, ⟨rfl, sameb, samee⟩, .expression whole, fun _ => whole⟩
  | var name place' operand _ =>
    -- the variable gets the operand that the scope shares in place of its own
    obtain ⟨bound, found, same⟩ := h
    obtain ⟨shared, visible, sameb⟩ := mirrors.operands.exists_visible found
    have free := (mirrors.words name bound found).2
    exact ⟨.var name shared.place shared.expr, ⟨rfl, (same.trans sameb).symm⟩, .name free visible,
      fun h => nomatch h⟩

end Grammar

/-! ### Printing and reading -/

namespace Expr

open Grammar

/-- Whatever says the same as a tree that was read is well-formed. -/
theorem wellFormed_of_parse {text : String} {d e : Expr} (h : parse text = .ok d) (same : Same d e) :
    e.WellFormed := by
  obtain ⟨lexemes, ht, derived⟩ := parse_eq_ok_iff.mp h
  have names (word : String) (hm : .word word ∈ lexemes.map Lexeme.token) : Token.IsName word :=
    Cursor.isName_of_mem_tokens ht hm
  have within : 0 + d.nesting ≤ maxDepth := derived.nesting_le (Nat.zero_le maxDepth)
  rw [Nat.zero_add, same.nesting_eq] at within
  have valid := wellScoped_of_derives derived mirrors_empty names same
  exact ⟨same.isCompound derived.isCompound, valid, within⟩

theorem WellFormed.named {e : Expr} (h : e.WellFormed) : e.Named :=
  h.wellScoped.named fun _ _ found => nomatch found

/-- A well-formed tree is read back, up to the places of its operands. -/
theorem WellFormed.exists_parse_text {e : Expr} (h : e.WellFormed) :
    ∃ d, parse e.text = .ok d ∧ Same d e := by
  obtain ⟨lexemes, ht, tokens⟩ := tokenize_text e h.named
  obtain ⟨d, same, -, derived⟩ := derives_of_wellScoped e 0 0 h.wellScoped mirrors_empty
  have within : 0 + d.nesting ≤ maxDepth := by
    rw [Nat.zero_add, same.nesting_eq]
    exact h.nesting_le
  have program : Program (some maxDepth) e.tokens d := (derived h.compound).limited within
  exact ⟨d, parse_eq_ok_iff.mpr ⟨lexemes, ht, tokens ▸ program⟩, same⟩

/-- A tree that was read is read back as it is. -/
theorem parse_text_of_parse {text : String} {e : Expr} (h : parse text = .ok e) : parse e.text = .ok e := by
  obtain ⟨lexemes, -, derived⟩ := parse_eq_ok_iff.mp h
  have formed := wellFormed_of_parse h (.refl e)
  obtain ⟨lexemes', ht, tokens⟩ := tokenize_text e formed.named
  refine parse_eq_ok_iff.mpr ⟨lexemes', ht, ?_⟩
  rw [tokens, ← derived.tokens_eq]
  exact derived

end Expr

theorem parsedAlike_ok_iff {r : Except ParseError Expr} {e : Expr} :
    parsedAlike r (.ok e) = true ↔ ∃ d, r = .ok d ∧ Expr.Same d e := by
  cases r <;> simp [parsedAlike]

/-- The trees that are read back from what is printed of them are the well-formed ones.  Every tree that
was read from any text is one of them, and is read back as it is. -/
theorem reads_back_iff_wellFormed :
    (∀ e : Expr, parsedAlike (Expr.parse e.text) (.ok e) = true ↔ e.WellFormed) ∧
      ∀ text e, Expr.parse text = .ok e → e.WellFormed ∧ Expr.parse e.text = .ok e := by
  refine ⟨fun e => ?_, fun text e h => ⟨Expr.wellFormed_of_parse h (.refl e), Expr.parse_text_of_parse h⟩⟩
  rw [parsedAlike_ok_iff]
  constructor
  · rintro ⟨d, h, same⟩
    exact Expr.wellFormed_of_parse h same
  · exact Expr.WellFormed.exists_parse_text

/-- A program that doubles the least number.  No text has the places of its variables. -/
def Expr.twiceTheLeast : Expr :=
  .letIn "a" (.integer (-2147483648))
    (.binary .add (.var "a" 7 (.integer (-2147483648))) (.var "a" 8 (.integer (-2147483648))))

theorem reads_back_twiceTheLeast :
    parsedAlike (Expr.parse Expr.twiceTheLeast.text) (.ok Expr.twiceTheLeast) = true ∧
      ∃ e, Expr.parse Expr.twiceTheLeast.text = .ok e ∧ e.WellFormed ∧ Expr.parse e.text = .ok e := by
  have isName : Token.IsName "a" := ⟨'a', [], rfl, rfl, List.forall_mem_nil _⟩
  have formed : Expr.twiceTheLeast.WellFormed :=
    ⟨trivial, ⟨isName, by decide, rfl, trivial, trivial, ⟨_, rfl, .refl _⟩, ⟨_, rfl, .refl _⟩⟩, by decide⟩
  have alike := (reads_back_iff_wellFormed.1 Expr.twiceTheLeast).mpr formed
  obtain ⟨e, he, -⟩ := parsedAlike_ok_iff.mp alike
  exact ⟨alike, e, he, reads_back_iff_wellFormed.2 _ e he⟩

/-! ### Trees and tokens -/

section

variable {text text' : String} {d e : Expr} {lexemes lexemes' : List Lexeme}

/-- The tree of a text is written with the tokens of the text. -/
theorem Expr.tokens_of_parse (h : Expr.parse text = .ok e) (ht : tokenize text = .ok lexemes) :
    lexemes.map Lexeme.token = e.tokens := by
  obtain ⟨found, hf, derived⟩ := Expr.parse_eq_ok_iff.mp h
  obtain rfl := Except.ok.inj (hf.symm.trans ht)
  exact derived.tokens_eq

/-- Only the tokens of a text count. -/
theorem Expr.parse_of_tokens_eq (ht : tokenize text = .ok lexemes) (ht' : tokenize text' = .ok lexemes')
    (same : lexemes'.map Lexeme.token = lexemes.map Lexeme.token) (h : Expr.parse text = .ok e) :
    Expr.parse text' = .ok e := by
  obtain ⟨found, hf, derived⟩ := Expr.parse_eq_ok_iff.mp h
  obtain rfl := Except.ok.inj (hf.symm.trans ht)
  exact Expr.parse_eq_ok_iff.mpr ⟨lexemes', ht', same ▸ derived⟩

end

/-- What is printed of a tree has the tokens of the text that the tree was read from.  So two texts that
are read have the same tree exactly if they have the same tokens, and then even with the same places;
and of two texts with the same tokens both are read or none is. -/
theorem parse_keeps_tokens :
    (∀ text e, Expr.parse text = .ok e → ∃ lexemes lexemes', tokenize text = .ok lexemes ∧
      tokenize e.text = .ok lexemes' ∧ lexemes'.map Lexeme.token = lexemes.map Lexeme.token) ∧
    (∀ text text' d e lexemes lexemes', Expr.parse text = .ok d → Expr.parse text' = .ok e →
      tokenize text = .ok lexemes → tokenize text' = .ok lexemes' →
      (parsedAlike (Expr.parse text) (Expr.parse text') = true ↔
        lexemes.map Lexeme.token = lexemes'.map Lexeme.token)) ∧
    ∀ text text' lexemes lexemes', tokenize text = .ok lexemes → tokenize text' = .ok lexemes' →
      lexemes.map Lexeme.token = lexemes'.map Lexeme.token →
      ∀ e, Expr.parse text = .ok e ↔ Expr.parse text' = .ok e := by
  refine ⟨fun text e h => ?_, fun text text' d e lexemes lexemes' h h' ht ht' => ?_,
    fun text text' lexemes lexemes' ht ht' same e => ?_⟩
  · obtain ⟨lexemes, ht, derived⟩ := Expr.parse_eq_ok_iff.mp h
    obtain ⟨lexemes', ht', tokens⟩ := Expr.tokenize_text e (Expr.wellFormed_of_parse h (.refl e)).named
    exact ⟨lexemes, lexemes', ht, ht', tokens.trans derived.tokens_eq.symm⟩
  · rw [h', parsedAlike_ok_iff, Expr.tokens_of_parse h ht, Expr.tokens_of_parse h' ht']
    constructor
    · rintro ⟨tree, read, alike⟩
      obtain rfl := Except.ok.inj (h.symm.trans read)
      exact alike.tokens_eq
    · intro same
      have tokens : lexemes'.map Lexeme.token = lexemes.map Lexeme.token := by
        rw [Expr.tokens_of_parse h ht, Expr.tokens_of_parse h' ht', same]
      obtain rfl := Except.ok.inj ((Expr.parse_of_tokens_eq ht ht' tokens h).symm.trans h')
      exact ⟨d, h, .refl d⟩
  · exact ⟨Expr.parse_of_tokens_eq ht ht' same.symm, Expr.parse_of_tokens_eq ht' ht same⟩

/-- Zeros in front, a minus sign before a zero, and blanks are no part of the tree. -/
theorem parse_keeps_tokens_zeros :
    ∃ lexemes lexemes', tokenize "add(007,-0)" = .ok lexemes ∧ tokenize "add( 7 , 0)" = .ok lexemes' ∧
      lexemes.map Lexeme.token = lexemes'.map Lexeme.token ∧
      Expr.parse "add( 7 , 0)" = .ok (.binary .add (.integer 7) (.integer 0)) := by
  have read : Expr.parse "add(007,-0)" = .ok (.binary .add (.integer 7) (.integer 0)) := by rfl
  have read' : Expr.parse "add( 7 , 0)" = .ok (.binary .add (.integer 7) (.integer 0)) := by rfl
  obtain ⟨lexemes, -, ht, -⟩ := parse_keeps_tokens.1 _ _ read
  obtain ⟨lexemes', -, ht', -⟩ := parse_keeps_tokens.1 _ _ read'
  have alike : parsedAlike (Expr.parse "add(007,-0)") (Expr.parse "add( 7 , 0)") = true := by
    rw [read, read']
    decide
  have same := (parse_keeps_tokens.2.1 _ _ _ _ _ _ read read' ht ht').mp alike
  exact ⟨lexemes, lexemes', ht, ht', same, (parse_keeps_tokens.2.2 _ _ _ _ ht ht' same _).mp read⟩

end LetArith
