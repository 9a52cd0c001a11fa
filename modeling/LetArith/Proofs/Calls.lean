import LetArith.Proofs.Stopping

/-!
# LetArith.Proofs.Calls — what the reader is in the midst of

The functions of the reader call one another, down to the operands.  Whatever they were called for, the
tokens that were taken before tell which operators and `let`s are open, and how far each of them was
read.

* `foldl_nextForms_of_derives`: a whole expression or operand opens nothing that it does not close.
* `ParseM.Makes.run_eq_error`, `ParseM.Reached.parse_eq_error`: a call fails where one that it makes
  does, and so does the text.
* `ParseM.Reached.sits`: where a function is called, the visible names are those of the `let`s whose
  body is being read, and each open form takes up a level.
-/

namespace LetArith

open Grammar

/-! ### Open forms -/

/-- An operator or `let` whose closing parenthesis was not read yet.  Of a `let` there may be no more
than the word, or its name too, or the comma behind the name, or also the one behind the operand. -/
inductive Form
  | operator
  | letHead
  | letNamed (name : String)
  | letValue (name : String)
  | letBody (name : String)
  deriving DecidableEq

/-- The open forms behind one more token, the innermost one first. -/
def nextForms (forms : List Form) : Token → List Form
  | .word text =>
    match forms with
    | .letHead :: outer => .letNamed text :: outer
    | _ =>
      match Keyword.ofText? text with
      | some (.operator _) => .operator :: forms
      | some .letIn => .letHead :: forms
      | none => forms
  | .comma =>
    match forms with
    | .letNamed name :: outer => .letValue name :: outer
    | .letValue name :: outer => .letBody name :: outer
    | _ => forms
  | .closeParen => forms.tail
  | .integer _ | .openParen | .endOfInput => forms

/-- The open forms behind some tokens. -/
def openForms (tokens : List Token) : List Form := tokens.foldl nextForms []

/-- The name of a `let` whose body is being read. -/
def Form.body? : Form → Option String
  | letBody name => some name
  | _ => none

/-- The names of the `let`s whose bodies are being read behind some tokens, the innermost one first. -/
def openBodies (tokens : List Token) : List String := (openForms tokens).filterMap Form.body?

/-- The next word is no new name. -/
def AtPart (forms : List Form) : Prop := forms.head? ≠ some .letHead

theorem nextForms_word {forms : List Form} (h : AtPart forms) (text : String) :
    nextForms forms (.word text) =
      match Keyword.ofText? text with
      | some (.operator _) => .operator :: forms
      | some .letIn => .letHead :: forms
      | none => forms := by
  cases forms with
  | nil => rfl
  | cons form outer =>
    cases form with
    | letHead => exact absurd rfl h
    | operator | letNamed _ | letValue _ | letBody _ => rfl

theorem nextForms_operator {forms : List Form} (h : AtPart forms) (op : Operator) :
    nextForms forms (.word op.word) = .operator :: forms := by
  have reserved : Keyword.ofText? op.word = some (.operator op) := Keyword.ofText?_text (.operator op)
  rw [nextForms_word h, reserved]

theorem nextForms_let {forms : List Form} (h : AtPart forms) :
    nextForms forms (.word "let") = .letHead :: forms := by
  rw [nextForms_word h, show Keyword.ofText? "let" = some .letIn from Keyword.ofText?_text .letIn]

/-- By induction on the derivation: what it opens it closes. -/
theorem foldl_nextForms_of_derives {limit : Option Nat} {symbol : Symbol} {scope : Scope} {place level : Nat}
    {tokens : List Token} {e : Expr} (h : Derives limit symbol scope place level tokens e) {forms : List Form}
    (ready : AtPart forms) : tokens.foldl nextForms forms = forms := by
  induction h generalizing forms with
  | integer value => rfl
  | name free visible => rw [List.foldl_cons, List.foldl_nil, nextForms_word ready, free]
  | expression inner ih => exact ih ready
  | application op within left right ihl ihr =>
    have inside : AtPart (.operator :: forms) := by simp [AtPart]
    simp only [List.foldl_cons, List.foldl_append, List.foldl_nil, nextForms_operator ready]
    simp only [nextForms, ihl inside, ihr inside, List.tail_cons]
  | @letIn scope place level name boundTokens bodyTokens bound body within free fresh operand inner ihb ihe =>
    have value : AtPart (.letValue name :: forms) := by simp [AtPart]
    have inside : AtPart (.letBody name :: forms) := by simp [AtPart]
    simp only [List.foldl_cons, List.foldl_append, List.foldl_nil, nextForms_let ready]
    simp only [nextForms, ihb value, ihe inside, List.tail_cons]

namespace ParseM

/-! ### Calls -/

/-- A call of one of the functions that read a part of a program.  As many levels are left for the
expressions below as `levels` says, or for the expression itself. -/
inductive Call
  | expression (levels : Nat) (scope : Scope) (place : Nat)
  | operand (levels : Nat) (scope : Scope) (place : Nat)
  | application (levels : Nat) (op : Operator) (scope : Scope) (place : Nat)
  | letBinding (levels : Nat) (scope : Scope) (place : Nat)

namespace Call

/-- What is called. -/
def run : Call → ParseM Expr
  | expression levels scope place => ParseM.expression levels scope place
  | operand levels scope place => ParseM.operand (ParseM.expression levels) scope place
  | application levels op scope place => ParseM.application (ParseM.expression levels) op scope place
  | letBinding levels scope place => ParseM.letBinding (ParseM.expression levels) scope place

/-- What is visible. -/
def scope : Call → Scope
  | expression _ scope _ => scope
  | operand _ scope _ => scope
  | application _ _ scope _ => scope
  | letBinding _ scope _ => scope

/-- The levels that are left. -/
def levels : Call → Nat
  | expression levels _ _ => levels
  | operand levels _ _ => levels
  | application levels _ _ _ => levels
  | letBinding levels _ _ => levels

/-- How many forms the word ahead opens, where it was looked at before the call. -/
def pending : Call → Nat
  | expression _ _ _ => 0
  | operand _ _ _ => 0
  | application _ _ _ _ => 1
  | letBinding _ _ _ => 1

/-- The word ahead, where it was looked at before the call. -/
def keyword? : Call → Option Keyword
  | expression _ _ _ => none
  | operand _ _ _ => none
  | application _ op _ _ => some (.operator op)
  | letBinding _ _ _ => some .letIn

end Call

/-- The first call makes the second one.  There is one rule for each place of the reader where something
is called, with the steps before it. -/
inductive Makes : Call → ParseState → Call → ParseState → Prop
  | operator {levels : Nat} {scope : Scope} {place : Nat} {s : ParseState} {text : String} {op : Operator}
      (ahead : s.ahead.held.token = .word text) (keyword : Keyword.ofText? text = some (.operator op)) :
      Makes (.expression (levels + 1) scope place) s (.application levels op scope place) s
  | letIn {levels : Nat} {scope : Scope} {place : Nat} {s : ParseState} {text : String}
      (ahead : s.ahead.held.token = .word text) (keyword : Keyword.ofText? text = some .letIn) :
      Makes (.expression (levels + 1) scope place) s (.letBinding levels scope place) s
  | nested {levels : Nat} {scope : Scope} {place : Nat} {s : ParseState} {text : String}
      (ahead : s.ahead.held.token = .word text) (reserved : (Keyword.ofText? text).isSome) :
      Makes (.operand levels scope place) s (.expression levels scope place) s
  | lhs {levels : Nat} {op : Operator} {scope : Scope} {place : Nat} {s s₁ s₂ : ParseState}
      {word opening : Lexeme} (h₁ : expect .word s = .ok word s₁)
      (h₂ : expect .openParen s₁ = .ok opening s₂) :
      Makes (.application levels op scope place) s (.operand levels scope (place + 1)) s₂
  | rhs {levels : Nat} {op : Operator} {scope : Scope} {place : Nat} {s s₁ s₂ s₃ s₄ : ParseState}
      {word opening comma : Lexeme} {lhs : Expr} (h₁ : expect .word s = .ok word s₁)
      (h₂ : expect .openParen s₁ = .ok opening s₂)
      (h₃ : operand (expression levels) scope (place + 1) s₂ = .ok lhs s₃)
      (h₄ : expect .comma s₃ = .ok comma s₄) :
      Makes (.application levels op scope place) s (.operand levels scope (place + 1 + lhs.nodeCount)) s₄
  | value {levels : Nat} {scope : Scope} {place : Nat} {s s₁ s₂ s₃ s₄ : ParseState}
      {word opening comma : Lexeme} {name : String} (h₁ : expect .word s = .ok word s₁)
      (h₂ : expect .openParen s₁ = .ok opening s₂)
      (h₃ : newName scope s₂ = .ok name s₃) (h₄ : expect .comma s₃ = .ok comma s₄) :
      Makes (.letBinding levels scope place) s (.operand levels scope (place + 1)) s₄
  | body {levels : Nat} {scope : Scope} {place : Nat} {s s₁ s₂ s₃ s₄ s₅ s₆ s₇ : ParseState}
      {word opening comma comma' : Lexeme} {name : String} {bound : Expr} {u : Unit}
      (h₁ : expect .word s = .ok word s₁) (h₂ : expect .openParen s₁ = .ok opening s₂)
      (h₃ : newName scope s₂ = .ok name s₃) (h₄ : expect .comma s₃ = .ok comma s₄)
      (h₅ : operand (expression levels) scope (place + 1) s₄ = .ok bound s₅)
      (h₆ : expect .comma s₅ = .ok comma' s₆) (h₇ : recordBound name bound s₆ = .ok u s₇) :
      Makes (.letBinding levels scope place) s
        (.expression levels (scope.bind name ⟨place + 1, bound⟩) (place + 1 + bound.nodeCount)) s₇

/-- The call is made while the text is read. -/
inductive Reached (text : String) : Call → ParseState → Prop
  | start {a : Lookahead} (first : Lookahead.ofCursor (.ofString text) = .ok a)
      (word : a.held.token.kind = .word) :
      Reached text (.expression maxDepth .empty 0) ⟨a, #[]⟩
  | call {c d : Call} {s t : ParseState} (caller : Reached text c s) (made : Makes c s d t) : Reached text d t

/-! ### Results of calls -/

/-- What fails in a call fails in its caller. -/
theorem Makes.run_eq_error {c d : Call} {s t t' : ParseState} {err : ParseError} (h : Makes c s d t)
    (failed : d.run t = .error err t') : c.run s = .error err t' := by
  -- the steps before the call succeed, so that its error is the first one of the caller
  cases h with
  | operator ahead keyword =>
    show expression _ _ _ s = _
    rw [expression, peekWord_bind ahead]
    simp only [keyword]
    exact failed
  | letIn ahead keyword =>
    show expression _ _ _ s = _
    rw [expression, peekWord_bind ahead]
    simp only [keyword]
    exact failed
  | nested ahead reserved =>
    show operand _ _ _ s = _
    rw [operand, peek_bind]
    simp only [ahead, reserved, if_true]
    exact failed
  | lhs h₁ h₂ =>
    exact (bind_of_ok h₁ _).trans ((bind_of_ok h₂ _).trans (bind_of_error failed _))
  | rhs h₁ h₂ h₃ h₄ =>
    exact (bind_of_ok h₁ _).trans ((bind_of_ok h₂ _).trans ((bind_of_ok h₃ _).trans ((bind_of_ok h₄ _).trans
      (bind_of_error failed _))))
  | value h₁ h₂ h₃ h₄ =>
    exact (bind_of_ok h₁ _).trans ((bind_of_ok h₂ _).trans ((bind_of_ok h₃ _).trans ((bind_of_ok h₄ _).trans
      (bind_of_error failed _))))
  | body h₁ h₂ h₃ h₄ h₅ h₆ h₇ =>
    exact (bind_of_ok h₁ _).trans ((bind_of_ok h₂ _).trans ((bind_of_ok h₃ _).trans ((bind_of_ok h₄ _).trans
      ((bind_of_ok h₅ _).trans ((bind_of_ok h₆ _).trans
        ((bind_of_ok h₇ _).trans (bind_of_error failed _)))))))

/-- What fails in a call fails in the text. -/
theorem Reached.parse_eq_error {text : String} {c : Call} {s s' : ParseState} {err : ParseError}
    (h : Reached text c s) (failed : c.run s = .error err s') : Expr.parse text = .error err := by
  induction h generalizing s' with
  | @start a first word =>
    have stopped : program ⟨a, #[]⟩ = .error err s' := by
      rw [program, peek_bind, if_pos word]
      exact bind_of_error failed _
    unfold Expr.parse Expr.parseRecorded
    rw [first]
    simp only [stopped]
  | call caller made ih => exact ih (made.run_eq_error failed)

/-! ### What is open where something is called -/

/-- The reader stands behind these lexemes of the text. -/
def Behind (text : String) (front : List Lexeme) (s : ParseState) : Prop :=
  ∃ last, (Cursor.ofString text).Munches front last ∧ Lookahead.ofCursor last = .ok s.ahead

/-- The reader stands behind tokens of the text that leave these forms open. -/
def Within (text : String) (forms : List Form) (s : ParseState) : Prop :=
  ∃ front, Behind text front s ∧ openForms (front.map Lexeme.token) = forms

section

variable {text : String} {forms : List Form} {s t : ParseState}

/-- More tokens are taken. -/
theorem Within.take {lexemes : List Lexeme} (h : Within text forms s) (taken : s.ahead.Reads lexemes t.ahead)
    (inner : ∀ lexeme ∈ lexemes, lexeme.token ≠ .endOfInput) :
    Within text ((lexemes.map Lexeme.token).foldl nextForms forms) t := by
  obtain ⟨front, ⟨last, munched, here⟩, rfl⟩ := h
  obtain ⟨last', later, there⟩ := (Lookahead.reads_iff_munches here inner).mp taken
  refine ⟨front ++ lexemes, ⟨last', Cursor.munches_append_iff.mpr ⟨last, munched, later⟩, there⟩, ?_⟩
  rw [openForms, openForms, List.map_append, List.foldl_append]

theorem Within.takeOne {lexeme : Lexeme} {token : Token} (h : Within text forms s)
    (taken : s.ahead.advance = (.ok lexeme, t.ahead)) (same : lexeme.token = token)
    (inner : token ≠ .endOfInput) :
    Within text (nextForms forms token) t := by
  have more := h.take (Lookahead.reads_singleton taken) (by simpa [same] using inner)
  rwa [List.map_singleton, same] at more

/-- A sign is taken. -/
theorem Within.sign {lexeme : Lexeme} (h : Within text forms s) (sign : Sign)
    (inner : sign.token ≠ .endOfInput) (taken : expect sign.token.kind s = .ok lexeme t) :
    Within text (nextForms forms sign.token) t := by
  obtain ⟨step, kind⟩ := expect_of_ok taken
  exact h.takeOne step (Sign.kind_eq_iff.mp kind) inner

/-- The word ahead is taken. -/
theorem Within.word {lexeme : Lexeme} {word : String} (h : Within text forms s)
    (ahead : s.ahead.held.token = .word word) (taken : expect .word s = .ok lexeme t) :
    Within text (nextForms forms (.word word)) t := by
  obtain ⟨step, -⟩ := expect_of_ok taken
  exact h.takeOne step ((Lookahead.held_advance step).symm ▸ ahead) (by simp)

/-- The word ahead and a parenthesis are taken. -/
theorem Within.opening {s₁ : ParseState} {word opening : Lexeme} {keyword : Keyword} (h : Within text forms s)
    (ahead : s.ahead.held.token = .word keyword.text) (h₁ : expect .word s = .ok word s₁)
    (h₂ : expect .openParen s₁ = .ok opening t) : Within text (nextForms forms (.word keyword.text)) t :=
  (h.word ahead h₁).sign .openParen (by decide) h₂

/-- What is taken as a new name is one. -/
theorem Within.newName {scope : Scope} {name : String} (h : Within text forms s)
    (taken : ParseM.newName scope s = .ok name t) : Within text (nextForms forms (.word name)) t ∧
      Token.IsName name ∧ Keyword.ofText? name = none ∧ scope.contains name = false := by
  obtain ⟨lexeme, step, same, free, fresh⟩ := newName_of_ok taken
  obtain rfl := Lookahead.held_advance step
  obtain ⟨front, ⟨last, -, here⟩, -⟩ := id h
  have isName := Cursor.isName_of_scan (Lookahead.ofCursor_eq_ok_iff.mp here) same
  exact ⟨h.takeOne step same (by simp), isName, free, fresh⟩

/-- A whole operand is taken. -/
theorem Within.operand {levels place : Nat} {scope : Scope} {e : Expr} (h : Within text forms s)
    (ready : AtPart forms) (taken : ParseM.operand (expression levels) scope place s = .ok e t) :
    Within text forms t := by
  obtain ⟨lexemes, reads, derived⟩ := sound_operand (sound_expression (Nat.zero_add levels)) _ _ _ _ _ taken
  have inner : ∀ lexeme ∈ lexemes, lexeme.token ≠ .endOfInput := fun lexeme hm ending =>
    derived.endOfInput_notMem (ending ▸ List.mem_map_of_mem hm)
  have more := h.take reads inner
  rwa [foldl_nextForms_of_derives derived ready] at more

end

end ParseM

namespace Scope

/-- The visible names, the nearest one first. -/
def names (s : Scope) : List String := s.bindings.map Binding.name

theorem contains_eq_false_iff {s : Scope} {name : String} : s.contains name = false ↔ name ∉ s.names := by
  simp [contains, names]

/-- The visible names are different names, and none is reserved. -/
structure WellNamed (s : Scope) : Prop where
  nodup : s.names.Nodup
  free : ∀ name ∈ s.names, Token.IsName name ∧ Keyword.ofText? name = none

theorem wellNamed_empty : WellNamed .empty := ⟨List.nodup_nil, List.forall_mem_nil _⟩

theorem WellNamed.bind {s : Scope} {name : String} (h : s.WellNamed) (isName : Token.IsName name)
    (free : Keyword.ofText? name = none) (fresh : s.contains name = false) (operand : Operand) :
    (s.bind name operand).WellNamed :=
  ⟨List.nodup_cons.mpr ⟨contains_eq_false_iff.mp fresh, h.nodup⟩,
    List.forall_mem_cons.mpr ⟨⟨isName, free⟩, h.free⟩⟩

end Scope

namespace ParseM

/-- What holds wherever something is called: the visible names are those of the `let`s whose bodies are
open, the word that was looked at is ahead, and a level is taken up by each open form and by the one
that this word opens. -/
structure Call.Sits (text : String) (forms : List Form) (c : Call) (s : ParseState) : Prop where
  within : Within text forms s
  ready : AtPart forms
  names : c.scope.names = forms.filterMap Form.body?
  wellNamed : c.scope.WellNamed
  depth : forms.length + c.pending + c.levels = maxDepth
  ahead : ∀ keyword, c.keyword? = some keyword → s.ahead.held.token = .word keyword.text

/-- By cases of the place of the call: what is open behind the steps before it. -/
theorem Call.Sits.call {text : String} {forms : List Form} {c d : Call} {s t : ParseState}
    (h : c.Sits text forms s) (made : Makes c s d t) : ∃ forms', d.Sits text forms' t := by
  obtain ⟨within, ready, names, wellNamed, depth, ahead⟩ := h
  cases made with
  | operator word keyword =>
    -- one level less is left, which is that of the pending operator
    refine ⟨forms, within, ready, names, wellNamed, ?_, fun found same => ?_⟩
    · simp only [Call.pending, Call.levels] at depth ⊢
      omega
    · obtain rfl := Option.some.inj same
      rw [word, Keyword.ofText?_eq_some_iff.mp keyword]
  | letIn word keyword =>
    refine ⟨forms, within, ready, names, wellNamed, ?_, fun found same => ?_⟩
    · simp only [Call.pending, Call.levels] at depth ⊢
      omega
    · obtain rfl := Option.some.inj same
      rw [word, Keyword.ofText?_eq_some_iff.mp keyword]
  | nested word reserved => exact ⟨forms, within, ready, names, wellNamed, depth, by rintro found ⟨⟩⟩
  | @lhs levels op scope place _ _ _ _ _ h₁ h₂ =>
    have opened := within.opening (ahead _ rfl) h₁ h₂
    rw [Keyword.text, nextForms_operator ready] at opened
    exact ⟨_, opened, by simp [AtPart], names, wellNamed, depth, by rintro found ⟨⟩⟩
  | @rhs levels op scope place _ _ _ _ _ _ _ _ _ h₁ h₂ h₃ h₄ =>
    have opened := within.opening (ahead _ rfl) h₁ h₂
    rw [Keyword.text, nextForms_operator ready] at opened
    have left := opened.operand (by simp [AtPart]) h₃
    have separated : Within text (.operator :: forms) t := left.sign .comma (by decide) h₄
    exact ⟨_, separated, by simp [AtPart], names, wellNamed, depth, by rintro found ⟨⟩⟩
  | @value levels scope place _ _ _ _ _ _ _ _ name h₁ h₂ h₃ h₄ =>
    have opened := within.opening (ahead _ rfl) h₁ h₂
    rw [Keyword.text, nextForms_let ready] at opened
    have named : Within text (.letNamed name :: forms) _ := (opened.newName h₃).1
    have separated : Within text (.letValue name :: forms) t := named.sign .comma (by decide) h₄
    exact ⟨_, separated, by simp [AtPart], names, wellNamed, depth, by rintro found ⟨⟩⟩
  | @body levels scope place _ _ _ _ _ _ _ _ _ _ _ _ name bound _ h₁ h₂ h₃ h₄ h₅ h₆ h₇ =>
    have opened := within.opening (ahead _ rfl) h₁ h₂
    rw [Keyword.text, nextForms_let ready] at opened
    obtain ⟨named, isName, free, fresh⟩ := opened.newName h₃
    have separated : Within text (.letValue name :: forms) _ := named.sign .comma (by decide) h₄
    have computed := separated.operand (by simp [AtPart]) h₅
    -- the comma opens the body, and with it the name is visible; recording it reads no token
    have inside : Within text (.letBody name :: forms) _ := computed.sign .comma (by decide) h₆
    obtain ⟨front, ⟨last, munched, here⟩, same⟩ := inside
    rw [← recordBound_of_ok h₇] at here
    refine ⟨_, ⟨front, ⟨last, munched, here⟩, same⟩, by simp [AtPart], ?_,
      wellNamed.bind isName free fresh _, depth, by rintro found ⟨⟩⟩
    exact congrArg (List.cons name) names

/-- Wherever something is called while a text is read, the visible names are those of the `let`s whose
bodies are open. -/
theorem Reached.sits {text : String} {c : Call} {s : ParseState} (h : Reached text c s) :
    ∃ forms, c.Sits text forms s := by
  induction h with
  | start first word =>
    have start : Within text [] ⟨_, #[]⟩ := ⟨[], ⟨_, .nil _, first⟩, rfl⟩
    exact ⟨[], start, by simp [AtPart], rfl, Scope.wellNamed_empty, rfl, by rintro found ⟨⟩⟩
  | call caller made ih =>
    obtain ⟨forms, sits⟩ := ih
    exact sits.call made

end ParseM
end LetArith
