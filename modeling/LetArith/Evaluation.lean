import LetArith.Arithmetic
import LetArith.Expr

/-!
# LetArith.Evaluation — the value of a tree

`Expr.value` says what a tree is worth: operands count from left to right, the bound operand of a `let`
is worth nothing but its failure, and a variable is worth its operand, computed anew at every use.

`Expr.evaluate` computes the value with a list of pending tasks and a stack of values, so that depth
costs no stack.

* `run_eval`: a tree on top of any tasks and any values leaves the same tasks and values, and its own
  value on top.
* `Expr.evaluate_eq_value`: so both ways agree.
-/

namespace LetArith

/-- The value of a tree, or the first error on the way to it. -/
def Expr.value : Expr → Except ArithmeticError Int32
  | integer value => .ok value
  | binary op lhs rhs => do op.apply (← lhs.value) (← rhs.value)
  | letIn _ bound body => do
    let _ ← bound.value
    body.value
  | var _ _ operand => operand.value

/-- Something that is still to be done. -/
inductive Task
  | eval (e : Expr)
  | apply (op : Operator)
  | discard

/-- How a list of tasks comes to its end. -/
inductive Halt
  | value (v : Int32)
  | failed (e : ArithmeticError)
  | stuck

/-- The number of steps that a tree takes, with its variables followed. -/
def Expr.steps : Expr → Nat
  | integer _ => 1
  | binary _ lhs rhs => lhs.steps + rhs.steps + 2
  | letIn _ bound body => bound.steps + body.steps + 2
  | var _ _ operand => operand.steps + 1

/-- The number of steps that a task takes. -/
def Task.steps : Task → Nat
  | eval e => e.steps
  | apply _ => 1
  | discard => 1

/-- The number of steps that several tasks take together. -/
def Task.totalSteps : List Task → Nat
  | [] => 0
  | task :: tasks => task.steps + totalSteps tasks

/-- Works off the tasks.  The result comes with the names of the `let`s that were entered on the way,
after those in `entered`. -/
def run : List Task → List Int32 → (entered : Array String) → Halt × Array String
  | [], [v], entered => (.value v, entered)
  | [], _, entered => (.stuck, entered)
  | .eval (.integer v) :: tasks, values, entered => run tasks (v :: values) entered
  | .eval (.binary op lhs rhs) :: tasks, values, entered =>
    run (.eval lhs :: .eval rhs :: .apply op :: tasks) values entered
  | .eval (.letIn name bound body) :: tasks, values, entered =>
    run (.eval bound :: .discard :: .eval body :: tasks) values (entered.push name)
  | .eval (.var _ _ operand) :: tasks, values, entered => run (.eval operand :: tasks) values entered
  | .apply op :: tasks, rhs :: lhs :: values, entered =>
    match op.apply lhs rhs with
    | .ok v => run tasks (v :: values) entered
    | .error e => (.failed e, entered)
  | .apply _ :: _, _, entered => (.stuck, entered)
  | .discard :: tasks, values, entered => run tasks values.tail entered
termination_by tasks => Task.totalSteps tasks
decreasing_by all_goals simp only [Task.totalSteps, Task.steps, Expr.steps]; omega

/-- A tree on top of the tasks is its value on top of the values. -/
theorem run_eval (e : Expr) (tasks : List Task) (values : List Int32) (entered : Array String) :
    ∃ entered', run (.eval e :: tasks) values entered =
      match e.value with
      | .ok v => run tasks (v :: values) entered'
      | .error err => (.failed err, entered') := by
  induction e generalizing tasks values entered with
  | integer v => exact ⟨entered, by rw [run]; rfl⟩
  | binary op lhs rhs ihl ihr =>
    rw [run]
    -- an error of the left operand ends the run, and the right one is met only with its value
    obtain ⟨entered₁, h₁⟩ := ihl (.eval rhs :: .apply op :: tasks) values entered
    rw [h₁]
    cases hl : lhs.value with
    | error err => exact ⟨entered₁, by simp [Expr.value, hl, bind, Except.bind]⟩
    | ok l =>
      obtain ⟨entered₂, h₂⟩ := ihr (.apply op :: tasks) (l :: values) entered₁
      dsimp only
      rw [h₂]
      cases hr : rhs.value with
      | error err => exact ⟨entered₂, by simp [Expr.value, hl, hr, bind, Except.bind]⟩
      | ok r =>
        refine ⟨entered₂, ?_⟩
        dsimp only
        rw [run]
        simp only [Expr.value, hl, hr, bind, Except.bind]
  | letIn name bound body ihb ihe =>
    rw [run]
    obtain ⟨entered₁, h₁⟩ := ihb (.discard :: .eval body :: tasks) values (entered.push name)
    rw [h₁]
    cases hb : bound.value with
    | error err => exact ⟨entered₁, by simp [Expr.value, hb, bind, Except.bind]⟩
    | ok b =>
      dsimp only
      rw [run]
      obtain ⟨entered₂, h₂⟩ := ihe tasks values entered₁
      exact ⟨entered₂, by simpa [Expr.value, hb, bind, Except.bind] using h₂⟩
  | var name place operand ih =>
    rw [run]
    exact ih tasks values entered

/-- A tree by itself ends in its value or in its error. -/
theorem run_eval_single (e : Expr) : ∃ entered, run [.eval e] [] #[] =
    match e.value with
    | .ok v => (.value v, entered)
    | .error err => (.failed err, entered) := by
  obtain ⟨entered, h⟩ := run_eval e [] [] #[]
  refine ⟨entered, ?_⟩
  rw [h]
  cases e.value with
  | ok v => dsimp only; rw [run]
  | error err => rfl

theorem run_eval_ne_stuck (e : Expr) (entered : Array String) : run [.eval e] [] #[] ≠ (.stuck, entered) := by
  obtain ⟨entered', h⟩ := run_eval_single e
  rw [h]
  cases e.value <;> simp

namespace Expr

/-- The value of a tree, with the names of the `let`s that were entered on the way to it. -/
def evaluateRecorded (e : Expr) : Except ArithmeticError Int32 × Array String :=
  match h : run [.eval e] [] #[] with
  | (.value v, entered) => (.ok v, entered)
  | (.failed err, entered) => (.error err, entered)
  | (.stuck, entered) => absurd h (run_eval_ne_stuck e entered)

/-- The value of a tree, computed without recursion into it. -/
def evaluate (e : Expr) : Except ArithmeticError Int32 := e.evaluateRecorded.1

theorem evaluate_eq_value (e : Expr) : e.evaluate = e.value := by
  obtain ⟨entered, h⟩ := run_eval_single e
  unfold evaluate evaluateRecorded
  split <;> cases hv : e.value <;> simp_all

end Expr
end LetArith
