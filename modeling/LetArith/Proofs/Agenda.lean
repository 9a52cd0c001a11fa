import LetArith.Proofs.Grammar

/-!
# LetArith.Proofs.Agenda — what is still to be read

The rules of the grammar once more, from the point of view of a reader in the midst of an expression.
Behind a reserved word there is an agenda: signs, names and parts, of which the later ones depend on
what was read for the earlier ones.  Whoever has read the first tokens of an agenda stands before a
slot, and the slot says of each token whether it may come next, and if not, what is wrong with it.

* `Agenda.after`: the rules, as what follows each reserved word.
* `derives_expression_iff`: an expression is a reserved word and the tokens that fill the agenda behind
  it.
* `Agenda.Awaits`: the slot behind the first tokens of an agenda.
* `Slot.fault?`: what is wrong with a token before a slot.
* `Slot.fault?_eq_some_iff`: the ways in which it can be wrong, one by one.
-/

namespace LetArith

/-- What can be wrong with one token of a program. -/
inductive Fault
  | unexpectedToken (expected : String)
  | missingExpression
  | unknownOperation
  | invalidOperand
  | unboundVariable
  | reservedName
  | redeclaration
  | tooDeep
  deriving DecidableEq

/-- The error that a fault of this lexeme is reported as. -/
def Fault.about : Fault → Lexeme → ParseError
  | unexpectedToken expected, found => .unexpectedToken expected found
  | missingExpression, found => .missingExpression found
  | unknownOperation, found => .unknownOperation found.token.text found.span
  | invalidOperand, found => .invalidOperand found
  | unboundVariable, found => .unboundVariable found.token.text found.span
  | reservedName, found => .reservedName found.token.text found.span
  | redeclaration, found => .redeclaration found.token.text found.span
  | tooDeep, found => .tooDeep found.span

@[simp] theorem Fault.span_about (fault : Fault) (found : Lexeme) :
    (fault.about found).span = found.span := by
  cases fault <;> rfl

theorem Fault.about_ne_lexical (fault : Fault) (found : Lexeme) (e : LexicalError) :
    fault.about found ≠ .lexical e := by
  cases fault <;> simp [about]

/-- An error tells its fault. -/
theorem Fault.eq_of_about_eq {fault fault' : Fault} {found found' : Lexeme}
    (h : fault.about found = fault'.about found') : fault = fault' := by
  cases fault <;> cases fault' <;> simp_all [about]

namespace Grammar

/-- A token that carries nothing.  The end of the text counts as one. -/
inductive Sign
  | openParen
  | comma
  | closeParen
  | endOfInput

/-- The sign as a token. -/
def Sign.token : Sign → Token
  | openParen => .openParen
  | comma => .comma
  | closeParen => .closeParen
  | endOfInput => .endOfInput

theorem Sign.kind_eq_iff {sign : Sign} {token : Token} :
    token.kind = sign.token.kind ↔ token = sign.token := by
  cases sign <;> cases token <;> simp [Sign.token, Token.kind]

theorem Sign.token_ne_word (sign : Sign) (text : String) : sign.token ≠ .word text := by
  cases sign <;> simp [Sign.token]

/-! ### Agendas -/

/-- What is still to be read, piece by piece, up to the tree that it is: a sign, a new name, a name that
gets bound, an expression or operand. -/
inductive Agenda
  | done (e : Expr)
  | sign (sign : Sign) (next : Agenda)
  | name (scope : Scope) (next : String → Agenda)
  | bound (name : String) (operand : Expr) (next : Agenda)
  | part (symbol : Symbol) (scope : Scope) (place : Nat) (next : Expr → Agenda)

namespace Agenda

/-- What follows the reserved word of an expression that starts at `place`. -/
def after (scope : Scope) (place : Nat) : Keyword → Agenda
  | .operator op =>
    .sign .openParen <| .part .operand scope (place + 1) fun lhs =>
    .sign .comma <| .part .operand scope (place + 1 + lhs.nodeCount) fun rhs =>
    .sign .closeParen <| .done (.binary op lhs rhs)
  | .letIn =>
    .sign .openParen <| .name scope fun name =>
    .sign .comma <| .part .operand scope (place + 1) fun operand =>
    .sign .comma <| .bound name operand <|
    .part .expression (scope.bind name ⟨place + 1, operand⟩) (place + 1 + operand.nodeCount) fun body =>
    .sign .closeParen <| .done (.letIn name operand body)

/-- A program is an expression, and the end of the text behind it. -/
def program : Agenda := .part .expression .empty 0 fun e => .sign .endOfInput <| .done e

/-- The tokens are what the agenda asks for, with its parts at `level`, and lead to the tree. -/
inductive Fills (limit : Option Nat) (level : Nat) : Agenda → List Token → Expr → Prop
  | done (e : Expr) : Fills limit level (.done e) [] e
  | sign {sign : Sign} {next : Agenda} {tokens : List Token} {e : Expr}
      (others : Fills limit level next tokens e) :
      Fills limit level (.sign sign next) (sign.token :: tokens) e
  | name {scope : Scope} {next : String → Agenda} {name : String} {tokens : List Token} {e : Expr}
      (free : Keyword.ofText? name = none) (fresh : scope.contains name = false)
      (others : Fills limit level (next name) tokens e) :
      Fills limit level (.name scope next) (.word name :: tokens) e
  | bound {name : String} {operand : Expr} {next : Agenda} {tokens : List Token} {e : Expr}
      (others : Fills limit level next tokens e) : Fills limit level (.bound name operand next) tokens e
  | part {symbol : Symbol} {scope : Scope} {place : Nat} {next : Expr → Agenda} {front back : List Token}
      {d e : Expr} (first : Derives limit symbol scope place level front d)
      (others : Fills limit level (next d) back e) :
      Fills limit level (.part symbol scope place next) (front ++ back) e

section

variable {limit : Option Nat} {level : Nat} {tokens : List Token} {e : Expr}

theorem fills_done_iff {d : Expr} : (done d).Fills limit level tokens e ↔ tokens = [] ∧ e = d := by
  constructor
  · intro h
    cases h
    exact ⟨rfl, rfl⟩
  · rintro ⟨rfl, rfl⟩
    exact .done e

theorem fills_sign_iff {sign : Sign} {next : Agenda} :
    (Agenda.sign sign next).Fills limit level tokens e ↔
      ∃ others, tokens = sign.token :: others ∧ next.Fills limit level others e := by
  constructor
  · intro h
    cases h with
    | sign others => exact ⟨_, rfl, others⟩
  · rintro ⟨others, rfl, h⟩
    exact .sign h

theorem fills_name_iff {scope : Scope} {next : String → Agenda} :
    (name scope next).Fills limit level tokens e ↔
      ∃ word others, tokens = .word word :: others ∧ Keyword.ofText? word = none ∧
        scope.contains word = false ∧
        (next word).Fills limit level others e := by
  constructor
  · intro h
    cases h with
    | name free fresh others => exact ⟨_, _, rfl, free, fresh, others⟩
  · rintro ⟨word, others, rfl, free, fresh, h⟩
    exact .name free fresh h

theorem fills_bound_iff {name : String} {operand : Expr} {next : Agenda} :
    (bound name operand next).Fills limit level tokens e ↔ next.Fills limit level tokens e := by
  constructor
  · intro h
    cases h with
    | bound others => exact others
  · exact .bound

theorem fills_part_iff {symbol : Symbol} {scope : Scope} {place : Nat} {next : Expr → Agenda} :
    (part symbol scope place next).Fills limit level tokens e ↔
      ∃ front back d, tokens = front ++ back ∧ Derives limit symbol scope place level front d ∧
        (next d).Fills limit level back e := by
  constructor
  · intro h
    cases h with
    | part first others => exact ⟨_, _, _, rfl, first, others⟩
  · rintro ⟨front, back, d, rfl, first, others⟩
    exact .part first others

end

end Agenda

section

variable {limit : Option Nat} {scope : Scope} {place level : Nat} {tokens : List Token} {e : Expr}

open Agenda in
/-- An expression is a reserved word, and what the agenda behind it asks for. -/
theorem derives_expression_iff :
    Derives limit .expression scope place level tokens e ↔ (∀ n ∈ limit, level < n) ∧
      ∃ keyword others, tokens = .word (Keyword.text keyword) :: others ∧
        (Agenda.after scope place keyword).Fills limit (level + 1) others e := by
  constructor
  · intro h
    cases h with
    | application op within left right =>
      exact ⟨within, .operator op, _, rfl, .sign (.part left (.sign (.part right (.sign (.done _)))))⟩
    | letIn within free fresh operand inner =>
      exact ⟨within, .letIn, _, rfl,
        .sign (.name free fresh (.sign (.part operand (.sign (.bound (.part inner (.sign (.done _))))))))⟩
  · -- every piece takes the next tokens from the list, until nothing is left at the closing parenthesis
    rintro ⟨within, keyword, others, rfl, h⟩
    cases keyword with
    | operator op =>
      obtain ⟨_, rfl, h₁⟩ := fills_sign_iff.mp h
      obtain ⟨left, _, lhs, rfl, first, h₂⟩ := fills_part_iff.mp h₁
      obtain ⟨_, rfl, h₃⟩ := fills_sign_iff.mp h₂
      obtain ⟨right, _, rhs, rfl, second, h₄⟩ := fills_part_iff.mp h₃
      obtain ⟨_, rfl, h₅⟩ := fills_sign_iff.mp h₄
      obtain ⟨rfl, rfl⟩ := fills_done_iff.mp h₅
      exact .application op within first second
    | letIn =>
      obtain ⟨_, rfl, h₁⟩ := fills_sign_iff.mp h
      obtain ⟨name, _, rfl, free, fresh, h₂⟩ := fills_name_iff.mp h₁
      obtain ⟨_, rfl, h₃⟩ := fills_sign_iff.mp h₂
      obtain ⟨value, _, bound, rfl, operand, h₄⟩ := fills_part_iff.mp h₃
      obtain ⟨_, rfl, h₅⟩ := fills_sign_iff.mp h₄
      obtain ⟨inside, _, body, rfl, inner, h₆⟩ := fills_part_iff.mp (fills_bound_iff.mp h₅)
      obtain ⟨_, rfl, h₇⟩ := fills_sign_iff.mp h₆
      obtain ⟨rfl, rfl⟩ := fills_done_iff.mp h₇
      exact .letIn within free fresh operand inner

end

/-! ### Slots -/

/-- What is to be read next: a program, an expression or operand, a new name, a sign. -/
inductive Slot
  | start
  | part (symbol : Symbol) (scope : Scope) (place level : Nat)
  | name (scope : Scope)
  | sign (sign : Sign)

namespace Slot

/-- What is wrong with a token with which an expression at `level` would start.  The level is looked at
before the word. -/
def expressionFault? (limit : Option Nat) (level : Nat) : Token → Option Fault
  | .word text =>
    if limit.any (· ≤ level) then some .tooDeep
    else if (Keyword.ofText? text).isSome then none
    else some .unknownOperation
  | _ => some (.unexpectedToken Keyword.listing)

theorem expressionFault?_of_ne_word {limit : Option Nat} {level : Nat} {token : Token}
    (h : ∀ text, token ≠ .word text) :
    expressionFault? limit level token = some (.unexpectedToken Keyword.listing) := by
  cases token with
  | word text => exact absurd rfl (h text)
  | integer _ | openParen | closeParen | comma | endOfInput => rfl

/-- What is wrong with a token that stands before the slot, if something is. -/
def fault? (limit : Option Nat) : Slot → Token → Option Fault
  | .start, found => if found.kind = .word then expressionFault? limit 0 found else some .missingExpression
  | .part .expression _ _ level, found => expressionFault? limit level found
  | .part .operand _ _ _, .integer _ => none
  | .part .operand scope _ level, .word text =>
    if (Keyword.ofText? text).isSome then expressionFault? limit level (.word text)
    else if scope.contains text then none
    else some .unboundVariable
  | .part .operand _ _ _, _ => some .invalidOperand
  | .name scope, .word text =>
    if (Keyword.ofText? text).isSome then some .reservedName
    else if scope.contains text then some .redeclaration
    else none
  | .name _, _ => some (.unexpectedToken "variable name")
  | .sign sought, found =>
    if found.kind = sought.token.kind then none else some (.unexpectedToken sought.token.kind.text)

/-- The reader decides by the token ahead, without taking it. -/
def peeks : Slot → Bool
  | start => true
  | part _ _ _ _ => true
  | name _ => false
  | sign _ => false

/-- What can be wrong with the first token of an expression. -/
inductive ExpressionFault (limit : Option Nat) (level : Nat) : Token → Fault → Prop
  | noWord {found : Token} (noWord : ∀ text, found ≠ .word text) :
      ExpressionFault limit level found (.unexpectedToken Keyword.listing)
  | unknownOperation {text : String} (within : ∀ n ∈ limit, level < n) (free : Keyword.ofText? text = none) :
      ExpressionFault limit level (.word text) .unknownOperation
  | tooDeep (text : String) {n : Nat} (bounded : limit = some n) (deep : n ≤ level) :
      ExpressionFault limit level (.word text) .tooDeep

/-- What can be wrong with a token in a slot. -/
inductive HasFault (limit : Option Nat) : Slot → Token → Fault → Prop
  | noProgram {found : Token} (noWord : ∀ text, found ≠ .word text) :
      HasFault limit .start found .missingExpression
  | program {text : String} {fault : Fault} (first : ExpressionFault limit 0 (.word text) fault) :
      HasFault limit .start (.word text) fault
  | expression {scope : Scope} {place level : Nat} {found : Token} {fault : Fault}
      (first : ExpressionFault limit level found fault) :
      HasFault limit (.part .expression scope place level) found fault
  | operand {scope : Scope} {place level : Nat} {keyword : Keyword} {fault : Fault}
      (first : ExpressionFault limit level (.word keyword.text) fault) :
      HasFault limit (.part .operand scope place level) (.word keyword.text) fault
  | noOperand {scope : Scope} {place level : Nat} {found : Token} (noWord : ∀ text, found ≠ .word text)
      (noInteger : ∀ value, found ≠ .integer value) :
      HasFault limit (.part .operand scope place level) found .invalidOperand
  | unboundVariable {scope : Scope} {place level : Nat} {text : String} (free : Keyword.ofText? text = none)
      (unknown : scope.lookup? text = none) :
      HasFault limit (.part .operand scope place level) (.word text) .unboundVariable
  | noName {scope : Scope} {found : Token} (noWord : ∀ text, found ≠ .word text) :
      HasFault limit (.name scope) found (.unexpectedToken "variable name")
  | reservedName (scope : Scope) (keyword : Keyword) :
      HasFault limit (.name scope) (.word keyword.text) .reservedName
  | redeclaration {scope : Scope} {text : String} (free : Keyword.ofText? text = none)
      (visible : scope.contains text = true) : HasFault limit (.name scope) (.word text) .redeclaration
  | noSign {sign : Sign} {found : Token} (other : found.kind ≠ sign.token.kind) :
      HasFault limit (.sign sign) found (.unexpectedToken sign.token.kind.text)

section

variable {limit : Option Nat} {level : Nat} {slot : Slot} {found : Token} {fault : Fault}

theorem any_le_iff : limit.any (· ≤ level) = true ↔ ∃ n, limit = some n ∧ n ≤ level := by
  cases limit <;> simp

theorem expressionFault?_eq_some_iff :
    expressionFault? limit level found = some fault ↔ ExpressionFault limit level found fault := by
  constructor
  · intro h
    cases found with
    | word text =>
      simp only [expressionFault?] at h
      split at h
      · next deep =>
        obtain ⟨n, bounded, deep⟩ := any_le_iff.mp deep
        obtain rfl := Option.some.inj h
        exact .tooDeep text bounded deep
      · next shallow =>
        split at h
        · cases h
        · next free =>
          obtain rfl := Option.some.inj h
          refine .unknownOperation (fun n hn => ?_) (by simpa using free)
          exact Nat.lt_of_not_le fun deep => shallow (any_le_iff.mpr ⟨n, hn, deep⟩)
    | integer _ | openParen | closeParen | comma | endOfInput =>
      obtain rfl := Option.some.inj h
      exact .noWord (by simp)
  · intro h
    cases h with
    | noWord noWord => exact expressionFault?_of_ne_word noWord
    | unknownOperation within free =>
      have shallow : ¬ limit.any (· ≤ level) = true := fun deep => by
        obtain ⟨n, bounded, deep⟩ := any_le_iff.mp deep
        exact absurd (within n bounded) (Nat.not_lt_of_le deep)
      simp only [expressionFault?, if_neg shallow, free]
      rfl
    | tooDeep text bounded deep => simp only [expressionFault?, if_pos (any_le_iff.mpr ⟨_, bounded, deep⟩)]

/-- Something is wrong with a token in one of these ways. -/
theorem fault?_eq_some_iff : slot.fault? limit found = some fault ↔ slot.HasFault limit found fault := by
  constructor
  · intro h
    cases slot with
    | start =>
      cases found with
      | word text => exact .program (expressionFault?_eq_some_iff.mp h)
      | integer _ | openParen | closeParen | comma | endOfInput =>
        obtain rfl := Option.some.inj h
        exact .noProgram (by simp)
    | part symbol scope place level =>
      cases symbol with
      | expression => exact .expression (expressionFault?_eq_some_iff.mp h)
      | operand =>
        -- a word is first looked for among the reserved ones, and only then among the visible names
        cases found with
        | integer value => cases h
        | word text =>
          cases hk : Keyword.ofText? text with
          | some keyword =>
            simp only [fault?, hk, Option.isSome_some, if_true] at h
            obtain rfl := Keyword.ofText?_eq_some_iff.mp hk
            exact .operand (expressionFault?_eq_some_iff.mp h)
          | none =>
            simp only [fault?, hk, Scope.contains_eq_isSome] at h
            cases visible : scope.lookup? text with
            | some shared => simp [visible] at h
            | none =>
              obtain rfl : Fault.unboundVariable = fault := by simpa [visible] using h
              exact .unboundVariable hk visible
        | openParen | closeParen | comma | endOfInput =>
          obtain rfl := Option.some.inj h
          exact .noOperand (by simp) (by simp)
    | name scope =>
      cases found with
      | word text =>
        cases hk : Keyword.ofText? text with
        | some keyword =>
          obtain rfl : Fault.reservedName = fault := by simpa [fault?, hk] using h
          obtain rfl := Keyword.ofText?_eq_some_iff.mp hk
          exact .reservedName scope keyword
        | none =>
          cases visible : scope.contains text with
          | true =>
            obtain rfl : Fault.redeclaration = fault := by simpa [fault?, hk, visible] using h
            exact .redeclaration hk visible
          | false => simp [fault?, hk, visible] at h
      | integer _ | openParen | closeParen | comma | endOfInput =>
        obtain rfl := Option.some.inj h
        exact .noName (by simp)
    | sign sign =>
      simp only [fault?] at h
      split at h
      · cases h
      · next other =>
        obtain rfl := Option.some.inj h
        exact .noSign other
  · intro h
    cases h with
    | noProgram noWord => cases found <;> simp_all [fault?, Token.kind]
    | program first => exact expressionFault?_eq_some_iff.mpr first
    | expression first => exact expressionFault?_eq_some_iff.mpr first
    | operand first => simpa [fault?] using expressionFault?_eq_some_iff.mpr first
    | noOperand noWord noInteger => cases found <;> simp_all [fault?]
    | unboundVariable free unknown => simp [fault?, free, Scope.contains_eq_isSome, unknown]
    | noName noWord => cases found <;> simp_all [fault?]
    | reservedName scope keyword => simp [fault?]
    | redeclaration free visible => simp [fault?, free, visible]
    | noSign other => simp [fault?, other]

end

end Slot

/-! ### What is awaited -/

/-- Behind these tokens of an agenda, with its parts at `level`, there is the slot. -/
inductive Agenda.Awaits (limit : Option Nat) : (level : Nat) → Agenda → List Token → Slot → Prop
  | sign {level : Nat} {sign : Sign} {next : Agenda} : Awaits limit level (.sign sign next) [] (.sign sign)
  | signThen {level : Nat} {sign : Sign} {next : Agenda} {front : List Token} {slot : Slot}
      (others : Awaits limit level next front slot) :
      Awaits limit level (.sign sign next) (sign.token :: front) slot
  | name {level : Nat} {scope : Scope} {next : String → Agenda} :
      Awaits limit level (.name scope next) [] (.name scope)
  | nameThen {level : Nat} {scope : Scope} {next : String → Agenda} {name : String} {front : List Token}
      {slot : Slot} (free : Keyword.ofText? name = none) (fresh : scope.contains name = false)
      (others : Awaits limit level (next name) front slot) :
      Awaits limit level (.name scope next) (.word name :: front) slot
  | boundThen {level : Nat} {name : String} {operand : Expr} {next : Agenda} {front : List Token}
      {slot : Slot} (others : Awaits limit level next front slot) :
      Awaits limit level (.bound name operand next) front slot
  | part {level : Nat} {symbol : Symbol} {scope : Scope} {place : Nat} {next : Expr → Agenda} :
      Awaits limit level (.part symbol scope place next) [] (.part symbol scope place level)
  | inside {level : Nat} {symbol : Symbol} {scope : Scope} {place : Nat} {next : Expr → Agenda}
      {keyword : Keyword} {front : List Token} {slot : Slot} (within : ∀ n ∈ limit, level < n)
      (inner : Awaits limit (level + 1) (.after scope place keyword) front slot) :
      Awaits limit level (.part symbol scope place next) (.word keyword.text :: front) slot
  | partThen {level : Nat} {symbol : Symbol} {scope : Scope} {place : Nat} {next : Expr → Agenda}
      {front back : List Token} {d : Expr} {slot : Slot}
      (first : Derives limit symbol scope place level front d)
      (others : Awaits limit level (next d) back slot) :
      Awaits limit level (.part symbol scope place next) (front ++ back) slot

/-- Behind these tokens of a program there is the slot. -/
inductive Awaits (limit : Option Nat) : List Token → Slot → Prop
  | start : Awaits limit [] .start
  | inside {first : Token} {others : List Token} {slot : Slot}
      (h : Agenda.program.Awaits limit 0 (first :: others) slot) :
      Awaits limit (first :: others) slot

section

variable {limit : Option Nat} {level : Nat} {tokens : List Token} {slot : Slot}

/-- What awaits a slot within an expression awaits it within an operand that is this expression, unless
nothing of it was read yet. -/
theorem Agenda.Awaits.operand_of_expression {scope : Scope} {place : Nat} {next : Expr → Agenda}
    (h : (Agenda.part .expression scope place next).Awaits limit level tokens slot) :
    (tokens = [] ∧ slot = .part .expression scope place level) ∨
      (Agenda.part .operand scope place next).Awaits limit level tokens slot := by
  cases h with
  | part => exact .inl ⟨rfl, rfl⟩
  | inside within inner => exact .inr (.inside within inner)
  | partThen first others => exact .inr (.partThen (.expression first) others)

/-- A program starts with a reserved word. -/
theorem Agenda.Awaits.exists_keyword {token : Token}
    (h : Agenda.program.Awaits limit 0 (token :: tokens) slot) :
    ∃ keyword, token = .word (Keyword.text keyword) := by
  generalize ht : token :: tokens = front at h
  unfold Agenda.program at h
  cases h with
  | part => cases ht
  | inside within inner => exact ⟨_, (List.cons_eq_cons.mp ht).1⟩
  | partThen first others =>
    obtain ⟨keyword, rest, rfl⟩ := first.expression_head
    exact ⟨keyword, (List.cons_eq_cons.mp ht).1⟩

/-- Behind no tokens of a program there is the slot for its expression. -/
theorem Awaits.of_agenda (h : Agenda.program.Awaits limit 0 tokens slot) :
    (tokens = [] ∧ slot = .part .expression .empty 0 0) ∨ Awaits limit tokens slot := by
  cases tokens with
  | nil =>
    left
    generalize ht : ([] : List Token) = tokens at h
    unfold Agenda.program at h
    cases h with
    | part => exact ⟨rfl, rfl⟩
    | inside within inner => cases ht
    | partThen first others =>
      obtain ⟨keyword, rest, rfl⟩ := first.expression_head
      cases ht
  | cons first others => exact .inr (.inside h)

end

end Grammar
end LetArith
