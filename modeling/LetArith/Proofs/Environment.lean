import LetArith.Failure
import LetArith.Proofs.Language

/-!
# LetArith.Proofs.Environment — variables as stored numbers

The meaning of a program with an environment: a `let` computes its operand once and stores the number,
and a variable reads what is stored.  Evaluation has no environment, and computes what a variable stands
for anew at every use.  In a program that was read from a text both come to the same.

* `Computes.deterministic`: with an environment, a tree is computed in one way at most.
* `Computes.inOrder`: the operators of a tree are applied in their order, up to the first that fails.
* `computes_of_derives`: where the environment agrees with the scope, a tree is computed, and to its
  value.
* `calculate_eq_environment`: so a program has the value that it has with an environment.
-/

namespace LetArith

/-- An operator with the two numbers that it is applied to. -/
structure Application where
  op : Operator
  lhs : Int32
  rhs : Int32

/-- What an application comes to. -/
def Application.result (a : Application) : Except ArithmeticError Int32 := a.op.apply a.lhs a.rhs

/-- The numbers that are stored under names, the nearest one first. -/
abbrev Environment := List (String × Int32)

/-- What happens while a tree is computed: a variable gets a number, or an operator is applied. -/
inductive Event
  | read (name : String) (place : Nat) (operand : Expr) (value : Int32)
  | applied (a : Application)

/-- The application that happens, if it is one. -/
def Event.application? : Event → Option Application
  | read _ _ _ _ => none
  | applied a => some a

/-- With this environment the tree comes to this result, and these events happen on the way. -/
inductive Computes : Environment → Expr → List Event → Except ArithmeticError Int32 → Prop
  | integer (env : Environment) (value : Int32) : Computes env (.integer value) [] (.ok value)
  | var {env : Environment} {name : String} {value : Int32} (stored : env.lookup name = some value)
      (place : Nat) (operand : Expr) :
      Computes env (.var name place operand) [.read name place operand value] (.ok value)
  | binary {env : Environment} {lhs rhs : Expr} {left right : List Event} {l r : Int32} (op : Operator)
      (first : Computes env lhs left (.ok l)) (second : Computes env rhs right (.ok r)) :
      Computes env (.binary op lhs rhs) (left ++ (right ++ [.applied ⟨op, l, r⟩])) (op.apply l r)
  | binaryLeft {env : Environment} {lhs : Expr} {left : List Event} {err : ArithmeticError}
      (op : Operator) (rhs : Expr) (first : Computes env lhs left (.error err)) :
      Computes env (.binary op lhs rhs) left (.error err)
  | binaryRight {env : Environment} {lhs rhs : Expr} {left right : List Event} {l : Int32}
      {err : ArithmeticError} (op : Operator) (first : Computes env lhs left (.ok l))
      (second : Computes env rhs right (.error err)) :
      Computes env (.binary op lhs rhs) (left ++ right) (.error err)
  | letIn {env : Environment} {name : String} {bound body : Expr} {before inside : List Event} {value : Int32}
      {result : Except ArithmeticError Int32} (first : Computes env bound before (.ok value))
      (second : Computes ((name, value) :: env) body inside result) :
      Computes env (.letIn name bound body) (before ++ inside) result
  | letBound {env : Environment} {bound : Expr} {before : List Event} {err : ArithmeticError} (name : String)
      (body : Expr) (first : Computes env bound before (.error err)) :
      Computes env (.letIn name bound body) before (.error err)

/-! ### One way only -/

section

variable {env : Environment} {e : Expr} {events : List Event} {result : Except ArithmeticError Int32}

/-- With an environment, a tree is computed in one way at most. -/
theorem Computes.deterministic (h : Computes env e events result) :
    ∀ {events' : List Event} {result' : Except ArithmeticError Int32}, Computes env e events' result' →
      events' = events ∧ result' = result := by
  induction h with
  | integer env value =>
    intro events' result' h'
    cases h'
    exact ⟨rfl, rfl⟩
  | var stored place operand =>
    intro events' result' h'
    cases h' with
    | var stored' =>
      obtain rfl := Option.some.inj (stored.symm.trans stored')
      exact ⟨rfl, rfl⟩
  -- two rules of one form agree on how far they get: no operand has a value and fails as well
  | binary op first second ihl ihr =>
    intro events' result' h'
    cases h' with
    | binary op first' second' =>
      obtain ⟨rfl, hl⟩ := ihl first'
      obtain ⟨rfl, hr⟩ := ihr second'
      cases hl
      cases hr
      exact ⟨rfl, rfl⟩
    | binaryLeft op rhs first' => cases (ihl first').2
    | binaryRight op first' second' => cases (ihr second').2
  | binaryLeft op rhs first ihl =>
    intro events' result' h'
    cases h' with
    | binary op first' second' => cases (ihl first').2
    | binaryLeft op rhs first' => exact ihl first'
    | binaryRight op first' second' => cases (ihl first').2
  | binaryRight op first second ihl ihr =>
    intro events' result' h'
    cases h' with
    | binary op first' second' => cases (ihr second').2
    | binaryLeft op rhs first' => cases (ihl first').2
    | binaryRight op first' second' =>
      obtain ⟨rfl, -⟩ := ihl first'
      obtain ⟨rfl, hr⟩ := ihr second'
      exact ⟨rfl, hr⟩
  | letIn first second ihb ihe =>
    intro events' result' h'
    cases h' with
    | letIn first' second' =>
      obtain ⟨rfl, hb⟩ := ihb first'
      cases hb
      obtain ⟨rfl, he⟩ := ihe second'
      exact ⟨rfl, he⟩
    | letBound name body first' => cases (ihb first').2
  | letBound name body first ihb =>
    intro events' result' h'
    cases h' with
    | letIn first' second' => cases (ihb first').2
    | letBound name body first' => exact ihb first'

/-! ### The order of the operators -/

/-- The operators of a tree as it is written, each behind its operands. -/
def Expr.operators : Expr → List Operator
  | integer _ => []
  | binary op lhs rhs => lhs.operators ++ (rhs.operators ++ [op])
  | letIn _ bound body => bound.operators ++ body.operators
  | var _ _ _ => []

/-- The operators are applied one after another.  If the result is a value, all of them are, and all
succeed.  If it is an error, it is that of the last one that is applied, and all before it succeed. -/
def InOrder (operators : List Operator) (applications : List Application) :
    Except ArithmeticError Int32 → Prop
  | .ok _ => applications.map Application.op = operators ∧ ∀ a ∈ applications, ∃ v, a.result = .ok v
  | .error err => ∃ before last rest, applications = before ++ [last] ∧
      operators = before.map Application.op ++ last.op :: rest ∧ (∀ a ∈ before, ∃ v, a.result = .ok v) ∧
      last.result = .error err

variable {front back : List Operator} {before behind : List Application}

theorem InOrder.append {v : Int32} (h : InOrder front before (.ok v)) (h' : InOrder back behind result) :
    InOrder (front ++ back) (before ++ behind) result := by
  obtain ⟨rfl, all⟩ := h
  cases result with
  | ok w =>
    obtain ⟨rfl, all'⟩ := h'
    exact ⟨List.map_append, List.forall_mem_append.mpr ⟨all, all'⟩⟩
  | error err =>
    obtain ⟨front', last, rest, rfl, rfl, all', failed⟩ := h'
    exact ⟨before ++ front', last, rest, (List.append_assoc ..).symm, by simp,
      List.forall_mem_append.mpr ⟨all, all'⟩, failed⟩

/-- What is written behind a failure is not applied. -/
theorem InOrder.failed {err : ArithmeticError} (h : InOrder front before (.error err))
    (back : List Operator) :
    InOrder (front ++ back) before (.error err) := by
  obtain ⟨front', last, rest, rfl, rfl, all, failed⟩ := h
  exact ⟨front', last, rest ++ back, rfl, by simp, all, failed⟩

theorem inOrder_singleton (a : Application) : InOrder [a.op] [a] a.result := by
  cases h : a.result with
  | ok v => exact ⟨rfl, fun b hb => ⟨v, List.mem_singleton.mp hb ▸ h⟩⟩
  | error err => exact ⟨[], a, [], rfl, rfl, by simp, h⟩

/-- The operators of a tree are applied in their order, up to the first that fails. -/
theorem Computes.inOrder (h : Computes env e events result) :
    InOrder e.operators (events.filterMap Event.application?) result := by
  induction h with
  | integer env value => exact ⟨rfl, by simp⟩
  | var stored place operand => exact ⟨rfl, by simp [Event.application?]⟩
  | @binary _ _ _ _ _ l r op first second ihl ihr =>
    rw [List.filterMap_append, List.filterMap_append]
    exact ihl.append (ihr.append (inOrder_singleton ⟨op, l, r⟩))
  | binaryLeft op rhs first ihl => exact ihl.failed _
  | binaryRight op first second ihl ihr =>
    rw [List.filterMap_append]
    exact ihl.append (ihr.failed _)
  | letIn first second ihb ihe =>
    rw [List.filterMap_append]
    exact ihb.append ihe
  | letBound name body first ihb => exact ihb.failed _

end

/-! ### Programs -/

namespace Grammar

/-- What is stored under the visible names is what their operands are worth. -/
def Agrees (env : Environment) (scope : Scope) : Prop :=
  scope.Matches (fun v operand => operand.value = .ok v) env

/-- What a variable gets is its value. -/
def ReadsValues (events : List Event) : Prop :=
  ∀ name place operand v, Event.read name place operand v ∈ events →
    (Expr.var name place operand).value = .ok v

theorem ReadsValues.append {events events' : List Event} (h : ReadsValues events) (h' : ReadsValues events') :
    ReadsValues (events ++ events') := fun name place operand v hm =>
  (List.mem_append.mp hm).elim (h name place operand v) (h' name place operand v)

/-- By induction on the derivation.  A `let` keeps environment and scope in agreement, since what it
stores is what the operand that it shares is worth. -/
theorem computes_of_derives {limit : Option Nat} {symbol : Symbol} {scope : Scope} {place level : Nat}
    {tokens : List Token} {e : Expr} (h : Derives limit symbol scope place level tokens e) :
    ∀ {env : Environment}, Agrees env scope → ∃ events, Computes env e events e.value ∧
      ReadsValues events := by
  induction h with
  | integer value => exact fun {env} _ => ⟨[], .integer env value, by simp [ReadsValues]⟩
  | @name _ _ _ name shared free visible =>
    intro env agrees
    obtain ⟨v, stored, hv⟩ := agrees.exists_known visible
    refine ⟨[.read name shared.place shared.expr v], ?_, ?_⟩
    · rw [Expr.value, hv]
      exact .var stored shared.place shared.expr
    · intro name' place operand w hm
      cases List.mem_singleton.mp hm
      exact hv
  | expression inner ih => exact ih
  | @application _ _ _ _ _ lhs rhs op within left right ihl ihr =>
    intro env agrees
    obtain ⟨leftEvents, first, readsl⟩ := ihl agrees
    obtain ⟨rightEvents, second, readsr⟩ := ihr agrees
    rw [Expr.value]
    cases hl : lhs.value with
    | error err =>
      rw [hl] at first
      exact ⟨leftEvents, .binaryLeft op rhs first, readsl⟩
    | ok l =>
      rw [hl] at first
      cases hr : rhs.value with
      | error err =>
        rw [hr] at second
        exact ⟨leftEvents ++ rightEvents, .binaryRight op first second, readsl.append readsr⟩
      | ok r =>
        rw [hr] at second
        refine ⟨_, .binary op first second, readsl.append (readsr.append fun name place operand v hm => ?_)⟩
        cases List.mem_singleton.mp hm
  | @letIn _ _ _ name _ _ bound body within free fresh operand inner ihb ihe =>
    intro env agrees
    obtain ⟨before, first, readsb⟩ := ihb agrees
    rw [Expr.value]
    cases hb : bound.value with
    | error err =>
      rw [hb] at first
      exact ⟨before, .letBound name body first, readsb⟩
    | ok v =>
      rw [hb] at first
      -- the body is entered only with a value, so that no operand in its scope fails
      obtain ⟨inside, second, readse⟩ := ihe (agrees.bind name hb)
      exact ⟨before ++ inside, .letIn first second, readsb.append readse⟩

end Grammar

/-- A program has the value that it has with an environment.  There a `let` computes its operand once
and stores the number, and a variable reads it: that never fails, and the number is the value of the
variable.  An error is that of the first application that fails, in the order in which the operators are
written. -/
theorem calculate_eq_environment {text : String} {e : Expr} (h : Expr.parse text = .ok e) :
    ∃ events result, Computes [] e events result ∧
      (∀ events' result', Computes [] e events' result' → events' = events ∧ result' = result) ∧
      calculate text = result.mapError Failure.arithmetic ∧
      (∀ name place operand value, .read name place operand value ∈ events →
        (Expr.var name place operand).evaluate = .ok value) ∧
      InOrder e.operators (events.filterMap Event.application?) result := by
  obtain ⟨lexemes, -, derived⟩ := Expr.parse_eq_ok_iff.mp h
  obtain ⟨events, computes, reads⟩ := Grammar.computes_of_derives derived Scope.matches_empty
  refine ⟨events, e.value, computes, fun _ _ h' => computes.deterministic h', ?_, ?_, computes.inOrder⟩
  · rw [calculate, h]
    dsimp only
    rw [e.evaluate_eq_value]
    cases e.value <;> rfl
  · intro name place operand value hm
    rw [Expr.evaluate_eq_value]
    exact reads name place operand value hm

/-- A division by zero behind a variable that is read, and in front of one that is not. -/
def Expr.divisionOfThree : Expr :=
  .letIn "a" (.integer 3) (.binary .add (.binary .div (.var "a" 1 (.integer 3)) (.integer 0))
    (.var "a" 1 (.integer 3)))

theorem calculate_divisionOfThree :
    Expr.parse Expr.divisionOfThree.text = .ok Expr.divisionOfThree ∧
      calculate Expr.divisionOfThree.text = .error (.arithmetic (.divisionByZero 3)) := by
  have named : Expr.divisionOfThree.Named := by
    have name : Token.IsName "a" := ⟨'a', [], rfl, rfl, List.forall_mem_nil _⟩
    exact ⟨name, trivial, ⟨name, trivial⟩, name⟩
  have derived : Grammar.Program none Expr.divisionOfThree.tokens Expr.divisionOfThree := by
    have visible : (Scope.empty.bind "a" ⟨1, .integer 3⟩).lookup? "a" = some ⟨1, .integer 3⟩ := rfl
    refine .letIn (by simp) (by decide) rfl (.integer 3) (.application .add (by simp) (.expression ?_) ?_)
    · exact .application .div (by simp) (.name (by decide) visible) (.integer 0)
    · exact .name (by decide) visible
  obtain ⟨lexemes, ht, same⟩ := Expr.tokenize_text _ named
  have parsed : Expr.parse Expr.divisionOfThree.text = .ok Expr.divisionOfThree :=
    Expr.parse_eq_ok_iff.mpr ⟨lexemes, ht, same ▸ derived.limited (by decide)⟩
  obtain ⟨events, result, -, only, value, -⟩ := calculate_eq_environment parsed
  have failed := only _ _ (.letIn (.integer [] 3) (.binaryLeft .add (.var "a" 1 (.integer 3))
    (.binary .div (.var rfl 1 (.integer 3)) (.integer _ 0))))
  refine ⟨parsed, ?_⟩
  rw [value, ← failed.2]
  rfl

end LetArith
