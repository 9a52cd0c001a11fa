import LetArith.Proofs.Language

/-!
# LetArith.Proofs.Size — the size of a tree and the tokens of its text

Nodes are counted by a loop that takes one pending tree a turn and puts its parts in its place.  What a
variable stands for is never put there, so that the loop ends after as many turns as nodes are written.
Every operator and every `let` has three nodes less one in common with the next, and in a text it is a
reserved word with its signs.

* `Tally.exists_after`: what the loop has done after any number of turns, and what is left.
* `Expr.size_eq_two_mul_forms`: the size of a tree from its operators and `let`s.
* `Expr.length_tokens`, `Grammar.Derives.countP_isReserved`: the tokens of a text, from the same
  numbers.
* `size_counts_written_program`: so the reserved words of a text tell the size of its tree and how many
  tokens it has.
-/

namespace LetArith

open Grammar

namespace Expr

/-! ### The loop -/

/-- The loop that counts nodes, between two turns. -/
structure Tally where
  count : Nat
  pending : List Expr

namespace Tally

/-- One turn of the loop, if something is pending. -/
def step : Tally → Option Tally
  | ⟨_, []⟩ => none
  | ⟨count, integer _ :: pending⟩ => some ⟨count + 1, pending⟩
  | ⟨count, binary _ lhs rhs :: pending⟩ => some ⟨count + 1, rhs :: lhs :: pending⟩
  | ⟨count, letIn _ bound body :: pending⟩ => some ⟨count + 1, body :: bound :: pending⟩
  | ⟨count, var _ _ _ :: pending⟩ => some ⟨count + 1, pending⟩

/-- The loop after so many turns, unless it has ended before. -/
def after (t : Tally) : Nat → Option Tally
  | 0 => some t
  | turns + 1 => t.step.bind fun next => next.after turns

/-- Nothing has been counted, and the tree is pending. -/
def start (e : Expr) : Tally := ⟨0, [e]⟩

/-- The number of turns that are left. -/
def left (t : Tally) : Nat := totalNodeCount t.pending

variable {t next : Tally}

/-- A turn counts one node, and that one is not left. -/
theorem step_spec (h : t.step = some next) : next.count = t.count + 1 ∧ next.left + 1 = t.left := by
  revert h
  fun_cases step t <;> intro h <;> cases h
  all_goals
    simp only [left, totalNodeCount, nodeCount, true_and]
    omega

theorem left_eq_zero_iff : t.left = 0 ↔ t.step = none := by
  fun_cases step t <;> simp [left, totalNodeCount, nodeCount]

/-- The loop goes on as its turn says. -/
theorem countPending_eq_step (t : Tally) : countPending t.count t.pending =
    match t.step with
    | some next => countPending next.count next.pending
    | none => t.count := by
  fun_cases step t <;> rw [countPending]

/-- By induction on the turns: each one counted a node, and the others are left. -/
theorem exists_after {turns : Nat} (enough : turns ≤ t.left) : ∃ last, t.after turns = some last ∧
    last.count = t.count + turns ∧ last.left + turns = t.left ∧
    countPending t.count t.pending = countPending last.count last.pending := by
  induction turns generalizing t with
  | zero => exact ⟨t, rfl, rfl, rfl, rfl⟩
  | succ turns ih =>
    cases hs : t.step with
    | none =>
      -- no turn is asked for beyond the nodes that are left
      have ended := left_eq_zero_iff.mpr hs
      omega
    | some next =>
      obtain ⟨count, rest⟩ := step_spec hs
      obtain ⟨last, run, counted, remaining, same⟩ := ih (t := next) (by omega)
      refine ⟨last, by rw [after, hs, Option.bind_some, run], by omega, by omega, ?_⟩
      rw [countPending_eq_step, hs]
      exact same

/-- The loop ends when nothing is left, with the result that it has counted. -/
theorem exists_end (t : Tally) : ∃ last, t.after t.left = some last ∧ last.step = none ∧
    last.count = countPending t.count t.pending := by
  obtain ⟨last, run, -, remaining, same⟩ := t.exists_after (Nat.le_refl _)
  have ended : last.step = none := left_eq_zero_iff.mp (by omega)
  refine ⟨last, run, ended, ?_⟩
  rw [same, countPending_eq_step, ended]

end Tally

/-! ### Trees -/

/-- An operator or a `let`: a node that has others below it. -/
def Node.isForm : Node → Bool
  | .binary _ => true
  | .letIn _ => true
  | _ => false

/-- A `let`. -/
def Node.isLet : Node → Bool
  | .letIn _ => true
  | _ => false

/-- The number of operators and `let`s that are written. -/
def forms (e : Expr) : Nat := e.preorder.countP Node.isForm

/-- The number of `let`s that are written. -/
def letForms (e : Expr) : Nat := e.preorder.countP Node.isLet

/-- The same tree with other operands behind its variables. -/
def withOperands (f : String → Nat → Expr → Expr) : Expr → Expr
  | integer value => integer value
  | binary op lhs rhs => binary op (lhs.withOperands f) (rhs.withOperands f)
  | letIn name bound body => letIn name (bound.withOperands f) (body.withOperands f)
  | var name place operand => var name place (f name place operand)

theorem preorder_withOperands (f : String → Nat → Expr → Expr) (e : Expr) :
    (e.withOperands f).preorder = e.preorder := by
  induction e with
  | integer value => rfl
  | binary op lhs rhs ihl ihr => simp only [withOperands, preorder, ihl, ihr]
  | letIn name bound body ihb ihe => simp only [withOperands, preorder, ihb, ihe]
  | var name place operand _ => rfl

theorem forms_binary (op : Operator) (lhs rhs : Expr) :
    (binary op lhs rhs).forms = lhs.forms + rhs.forms + 1 := by
  simp only [forms, preorder, List.countP_cons, List.countP_append, Node.isForm, if_true]

theorem forms_letIn (name : String) (bound body : Expr) :
    (letIn name bound body).forms = bound.forms + body.forms + 1 := by
  simp only [forms, preorder, List.countP_cons, List.countP_append, Node.isForm, if_true]

theorem letForms_binary (op : Operator) (lhs rhs : Expr) :
    (binary op lhs rhs).letForms = lhs.letForms + rhs.letForms := by
  simp [letForms, preorder, Node.isLet]

theorem letForms_letIn (name : String) (bound body : Expr) :
    (letIn name bound body).letForms = bound.letForms + body.letForms + 1 := by
  simp [letForms, preorder, List.countP_cons, Node.isLet]

/-- Every operator and every `let` has two trees below it. -/
theorem size_eq_two_mul_forms (e : Expr) : e.size = 2 * e.forms + 1 := by
  rw [size_eq_nodeCount]
  induction e with
  | integer value => rfl
  | binary op lhs rhs ihl ihr =>
    rw [nodeCount, forms_binary]
    omega
  | letIn name bound body ihb ihe =>
    rw [nodeCount, forms_letIn]
    omega
  | var name place operand _ => rfl

/-- An operator is written with four tokens besides its operands, and a `let` with two more. -/
theorem length_tokens (e : Expr) : e.tokens.length = 5 * e.forms + 2 * e.letForms + 1 := by
  induction e with
  | integer value => rfl
  | binary op lhs rhs ihl ihr =>
    rw [forms_binary, letForms_binary]
    simp only [tokens, List.length_cons, List.length_append, List.length_nil, ihl, ihr]
    omega
  | letIn name bound body ihb ihe =>
    rw [forms_letIn, letForms_letIn]
    simp only [tokens, List.length_cons, List.length_append, List.length_nil, ihb, ihe]
    omega
  | var name place operand _ => rfl

end Expr

/-! ### Tokens -/

/-- A reserved word. -/
def Token.isReserved : Token → Bool
  | .word text => (Keyword.ofText? text).isSome
  | _ => false

/-- The word `let`. -/
def Token.isLet (token : Token) : Bool := token == .word "let"

theorem Operator.word_ne_let (op : Operator) : op.word ≠ "let" := by
  cases op <;> decide

theorem Keyword.ne_let_of_free {name : String} (free : Keyword.ofText? name = none) : name ≠ "let" := by
  rintro rfl
  exact absurd free (by decide)

section

variable {limit : Option Nat} {symbol : Symbol} {scope : Scope} {place level : Nat} {tokens : List Token}
  {e : Expr}

/-- The reserved words of a derivation are those of its operators and `let`s, since no name is reserved. -/
theorem Grammar.Derives.countP_isReserved (h : Derives limit symbol scope place level tokens e) :
    tokens.countP Token.isReserved = e.forms := by
  induction h with
  | integer value => rfl
  | name free visible => simp [Token.isReserved, free, Expr.forms, Expr.preorder, Expr.Node.isForm]
  | expression inner ih => exact ih
  | application op within left right ihl ihr =>
    have word : Keyword.ofText? op.word = some (.operator op) := Keyword.ofText?_text (.operator op)
    rw [Expr.forms_binary, ← ihl, ← ihr]
    simp [Token.isReserved, word]
  | letIn within free fresh operand inner ihb ihe =>
    have word : Keyword.ofText? "let" = some .letIn := Keyword.ofText?_text .letIn
    rw [Expr.forms_letIn, ← ihb, ← ihe]
    simp [Token.isReserved, word, free]

/-- And those that are `let` are those of its `let`s. -/
theorem Grammar.Derives.countP_isLet (h : Derives limit symbol scope place level tokens e) :
    tokens.countP Token.isLet = e.letForms := by
  induction h with
  | integer value => rfl
  | name free visible =>
    simp [Token.isLet, Keyword.ne_let_of_free free, Expr.letForms, Expr.preorder, Expr.Node.isLet]
  | expression inner ih => exact ih
  | application op within left right ihl ihr =>
    rw [Expr.letForms_binary, ← ihl, ← ihr]
    simp [Token.isLet, op.word_ne_let]
  | letIn within free fresh operand inner ihb ihe =>
    rw [Expr.letForms_letIn, ← ihb, ← ihe]
    simp [Token.isLet, Keyword.ne_let_of_free free]

end

/-- The size of a tree is the number of its nodes as they are written.  In this order: (1) the loop that
counts them ends, after one turn for each node; (2) the size is odd, and tells how many operators and
`let`s there are; (3) it does not depend on what variables stand for; (4) in a text that is read as the
tree, the operators and `let`s are the reserved words, and with the number of those that are `let` they
tell how many tokens there are. -/
theorem size_counts_written_program :
    (∀ e : Expr, ∃ last, (Expr.Tally.start e).after e.nodeCount = some last ∧ last.step = none ∧
      last.count = e.size ∧ e.size = e.nodeCount) ∧
    (∀ e : Expr, e.size = 2 * e.forms + 1) ∧
    (∀ (e : Expr) (f : String → Nat → Expr → Expr), (e.withOperands f).size = e.size) ∧
    ∀ text e, Expr.parse text = .ok e → ∃ lexemes, tokenize text = .ok lexemes ∧
      e.size = 2 * (lexemes.map Lexeme.token).countP Token.isReserved + 1 ∧
      lexemes.length = 5 * (lexemes.map Lexeme.token).countP Token.isReserved +
        2 * (lexemes.map Lexeme.token).countP Token.isLet + 1 := by
  refine ⟨fun e => ?_, Expr.size_eq_two_mul_forms, fun e f => ?_, fun text e h => ?_⟩
  · have turns : (Expr.Tally.start e).left = e.nodeCount := by
      simp [Expr.Tally.left, Expr.Tally.start, Expr.totalNodeCount]
    obtain ⟨last, run, ended, result⟩ := (Expr.Tally.start e).exists_end
    exact ⟨last, turns ▸ run, ended, result, e.size_eq_nodeCount⟩
  · rw [Expr.size_eq_nodeCount, Expr.size_eq_nodeCount, ← Expr.length_preorder, Expr.preorder_withOperands,
      Expr.length_preorder]
  · obtain ⟨lexemes, read, derived⟩ := Expr.parse_eq_ok_iff.mp h
    have length : lexemes.length = e.tokens.length := by rw [← derived.tokens_eq, List.length_map]
    refine ⟨lexemes, read, ?_, ?_⟩
    · rw [derived.countP_isReserved, Expr.size_eq_two_mul_forms]
    · rw [derived.countP_isReserved, derived.countP_isLet, length, Expr.length_tokens]

/-- A `let` and two operators: seven nodes and eighteen tokens, although there are more nodes when the
variables are followed. -/
theorem size_counts_written_program_square :
    ∃ e lexemes, Expr.parse "let(a,add(1,2),mult(a,a))" = .ok e ∧
      tokenize "let(a,add(1,2),mult(a,a))" = .ok lexemes ∧
      (lexemes.map Lexeme.token).countP Token.isReserved = 3 ∧
      (lexemes.map Lexeme.token).countP Token.isLet = 1 ∧
      e.size = 7 ∧ lexemes.length = 18 := by
  obtain ⟨-, -, -, counts⟩ := size_counts_written_program
  have square : Expr.parse "let(a,add(1,2),mult(a,a))" =
      .ok (.letIn "a" (.binary .add (.integer 1) (.integer 2))
        (.binary .mul (.var "a" 1 (.binary .add (.integer 1) (.integer 2)))
          (.var "a" 1 (.binary .add (.integer 1) (.integer 2))))) := by decide +kernel
  obtain ⟨lexemes, read, size, length⟩ := counts _ _ square
  have words : (lexemes.map Lexeme.token).countP Token.isReserved = 3 ∧
      (lexemes.map Lexeme.token).countP Token.isLet = 1 := by
    obtain ⟨lexemes', read', derived⟩ := Expr.parse_eq_ok_iff.mp square
    obtain rfl := Except.ok.inj (read.symm.trans read')
    rw [derived.countP_isReserved, derived.countP_isLet]
    decide
  refine ⟨_, lexemes, square, read, words.1, words.2, ?_, ?_⟩
  · rw [size, words.1]
  · rw [length, words.1, words.2]

end LetArith
