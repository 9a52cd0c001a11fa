import LetArith.Evaluation
import Mathlib.Logic.Relation

/-!
# LetArith.Proofs.StackMachine — evaluation step by step

The loop that works off a list of tasks, taken apart into its steps.  A tree on top of any tasks and any
values comes to its own value on top of the same values, with the same tasks left, or to its error.

* `Machine.run_eq_iff`: the loop ends with a halt exactly if its steps lead there.
* `Machine.work_lt_of_steps`: every step leaves less to do.
* `Machine.finishes_eval`: what the steps of a tree lead to, whatever lies below it.
* `evaluate_refines_value`: so the loop ends, is never stuck, and computes the value of the tree.
-/

namespace LetArith

/-- The loop between two steps. -/
structure Machine where
  tasks : List Task
  values : List Int32
  entered : Array String

namespace Machine

/-- One turn of the loop: how it goes on, or how it ends. -/
def step : Machine → Machine ⊕ Halt
  | ⟨[], [v], _⟩ => .inr (.value v)
  | ⟨[], _, _⟩ => .inr .stuck
  | ⟨.eval (.integer v) :: tasks, values, entered⟩ => .inl ⟨tasks, v :: values, entered⟩
  | ⟨.eval (.binary op lhs rhs) :: tasks, values, entered⟩ =>
    .inl ⟨.eval lhs :: .eval rhs :: .apply op :: tasks, values, entered⟩
  | ⟨.eval (.letIn name bound body) :: tasks, values, entered⟩ =>
    .inl ⟨.eval bound :: .discard :: .eval body :: tasks, values, entered.push name⟩
  | ⟨.eval (.var _ _ operand) :: tasks, values, entered⟩ => .inl ⟨.eval operand :: tasks, values, entered⟩
  | ⟨.apply op :: tasks, rhs :: lhs :: values, entered⟩ =>
    match op.apply lhs rhs with
    | .ok v => .inl ⟨tasks, v :: values, entered⟩
    | .error e => .inr (.failed e)
  | ⟨.apply _ :: _, _, _⟩ => .inr .stuck
  | ⟨.discard :: tasks, values, entered⟩ => .inl ⟨tasks, values.tail, entered⟩

/-- One turn of the loop leads from the first machine to the second. -/
def Steps (m next : Machine) : Prop := m.step = .inl next

/-- Some turns of the loop do, or none. -/
def Reaches : Machine → Machine → Prop := Relation.ReflTransGen Steps

/-- The machine with nothing but a tree to evaluate. -/
def start (e : Expr) : Machine := ⟨[.eval e], [], #[]⟩

variable {m next last : Machine}

theorem Reaches.head (h : m.Steps next) (h' : next.Reaches last) : m.Reaches last :=
  Relation.ReflTransGen.head h h'

theorem Reaches.trans (h : m.Reaches next) (h' : next.Reaches last) : m.Reaches last :=
  Relation.ReflTransGen.trans h h'

/-! ### The loop -/

/-- The number of steps that are left to do at most. -/
def work (m : Machine) : Nat := Task.totalSteps m.tasks

theorem work_lt_of_steps (h : m.Steps next) : next.work < m.work := by
  revert h
  unfold Steps
  fun_cases step m <;> intro h <;> cases h
  all_goals
    simp only [work, Task.totalSteps, Task.steps, Expr.steps]
    omega

/-- The loop goes on as its turn says. -/
theorem run_eq_step (m : Machine) : run m.tasks m.values m.entered =
    match m.step with
    | .inl next => run next.tasks next.values next.entered
    | .inr halt => (halt, m.entered) := by
  fun_cases step m with
  | case2 values entered other =>
    rw [run]
    exact other
  | case7 op tasks rhs lhs values entered v h => simp only [run, h]
  | case8 op tasks rhs lhs values entered e h => simp only [run, h]
  | case9 op tasks values entered other =>
    rw [run]
    exact other
  | _ => simp only [run]

/-- The loop ends as its last turn says.  From a machine to its end, the induction is on the work that
is left. -/
theorem run_eq_iff {halt : Halt} {entered : Array String} :
    run m.tasks m.values m.entered = (halt, entered) ↔
      ∃ last, m.Reaches last ∧ last.step = .inr halt ∧ last.entered = entered := by
  constructor
  · induction hw : m.work using Nat.strongRecOn generalizing m with
    | ind work ih =>
      intro h
      rw [run_eq_step] at h
      cases hs : m.step with
      | inr found =>
        rw [hs] at h
        cases h
        exact ⟨m, .refl, hs, rfl⟩
      | inl next =>
        rw [hs] at h
        obtain ⟨last, hr, hl⟩ := ih next.work (hw ▸ work_lt_of_steps hs) rfl h
        exact ⟨last, .head hs hr, hl⟩
  · rintro ⟨last, hr, hl, rfl⟩
    induction hr using Relation.ReflTransGen.head_induction_on with
    | refl => rw [run_eq_step, hl]
    | head first _ ih =>
      rw [run_eq_step, show step _ = _ from first]
      exact ih

/-! ### Trees -/

/-- A machine comes to a result on top of these tasks and values: to a value, or to an error. -/
def Finishes (m : Machine) (tasks : List Task) (values : List Int32) : Except ArithmeticError Int32 → Prop
  | .ok v => ∃ entered, m.Reaches ⟨tasks, v :: values, entered⟩
  | .error err => ∃ last, m.Reaches last ∧ last.step = .inr (.failed err)

variable {tasks tasks' : List Task} {values values' : List Int32} {r : Except ArithmeticError Int32}

theorem Finishes.head (h : m.Steps next) (h' : next.Finishes tasks values r) : m.Finishes tasks values r := by
  cases r with
  | ok v =>
    obtain ⟨entered, hr⟩ := h'
    exact ⟨entered, .head h hr⟩
  | error err =>
    obtain ⟨last, hr, hl⟩ := h'
    exact ⟨last, .head h hr, hl⟩

/-- What follows a value goes on from it, and an error is the end. -/
theorem Finishes.bind {f : Int32 → Except ArithmeticError Int32} (h : m.Finishes tasks values r)
    (h' : ∀ v entered, r = .ok v → Finishes ⟨tasks, v :: values, entered⟩ tasks' values' (f v)) :
    m.Finishes tasks' values' (r >>= f) := by
  cases r with
  | error err => exact h
  | ok v =>
    obtain ⟨entered, first⟩ := h
    have second := h' v entered rfl
    show m.Finishes tasks' values' (f v)
    cases hf : f v with
    | ok w =>
      rw [hf] at second
      obtain ⟨entered', hr⟩ := second
      exact ⟨entered', first.trans hr⟩
    | error err =>
      rw [hf] at second
      obtain ⟨last, hr, hl⟩ := second
      exact ⟨last, first.trans hr, hl⟩

/-- An operator takes the two values on top, the right one first. -/
theorem finishes_apply (op : Operator) (lhs rhs : Int32) (tasks : List Task) (values : List Int32)
    (entered : Array String) :
    Finishes ⟨.apply op :: tasks, rhs :: lhs :: values, entered⟩ tasks values (op.apply lhs rhs) := by
  cases h : op.apply lhs rhs with
  | ok v => exact ⟨entered, .single (by simp only [Steps, step, h])⟩
  | error err => exact ⟨_, .refl, by simp only [step, h]⟩

/-- By induction on the tree, over all tasks and values below it, since the operands of a tree are on
top of others. -/
theorem finishes_eval (e : Expr) (tasks : List Task) (values : List Int32) (entered : Array String) :
    Finishes ⟨.eval e :: tasks, values, entered⟩ tasks values e.value := by
  induction e generalizing tasks values entered with
  | integer v => exact ⟨entered, .single rfl⟩
  | binary op lhs rhs ihl ihr =>
    -- the left operand has the right one and the operator below it, and the right one the value of the
    -- left one
    refine .head rfl ((ihl (.eval rhs :: .apply op :: tasks) values entered).bind fun l entered _ => ?_)
    refine (ihr (.apply op :: tasks) (l :: values) entered).bind fun r entered _ => ?_
    exact finishes_apply op l r tasks values entered
  | letIn name bound body ihb ihe =>
    refine .head rfl ((ihb (.discard :: .eval body :: tasks) values (entered.push name)).bind
      fun b entered _ => ?_)
    -- the value of the bound operand is discarded, which leaves the values as they were
    exact .head rfl (ihe tasks values entered)
  | var name place operand ih => exact .head rfl (ih tasks values entered)

end Machine

/-- The halt with a result. -/
def Halt.ofResult : Except ArithmeticError Int32 → Halt
  | .ok v => .value v
  | .error err => .failed err

namespace Machine

/-- A tree by itself comes to the halt with its result. -/
theorem start_halts (e : Expr) : ∃ last, (start e).Reaches last ∧ last.step = .inr (.ofResult e.value) := by
  have h := finishes_eval e [] [] #[]
  cases hv : e.value with
  | ok v =>
    rw [hv] at h
    obtain ⟨entered, hr⟩ := h
    exact ⟨_, hr, rfl⟩
  | error err =>
    rw [hv] at h
    exact h

/-- It comes to no other halt, since the loop ends in one way only. -/
theorem eq_ofResult_of_halts {e : Expr} {halt : Halt} (h : (start e).Reaches m) (hm : m.step = .inr halt) :
    halt = .ofResult e.value := by
  obtain ⟨last, hr, hl⟩ := start_halts e
  have here := run_eq_iff.mpr ⟨m, h, hm, rfl⟩
  have there := run_eq_iff.mpr ⟨last, hr, hl, rfl⟩
  exact congrArg Prod.fst (here.symm.trans there)

end Machine

/-! ### Evaluation -/

/-- The loop computes the value of every tree.  It goes on in steps and ends from wherever it starts, a
tree by itself is never stuck on the way, and what it comes to is the value or the first error.  On top
of any tasks and any values, a tree adds its value to the values and takes itself from the tasks, or
ends with its error. -/
theorem evaluate_refines_value (e : Expr) :
    (∀ (m : Machine) halt entered, run m.tasks m.values m.entered = (halt, entered) ↔
      ∃ last, m.Reaches last ∧ last.step = .inr halt ∧ last.entered = entered) ∧
    WellFounded (fun next m : Machine => m.Steps next) ∧
    (∀ m, (Machine.start e).Reaches m → m.step ≠ .inr .stuck) ∧
    (∃ last, (Machine.start e).Reaches last ∧ last.step = .inr (.ofResult e.value)) ∧
    e.evaluate = e.value ∧
    ∀ tasks values entered,
      match e.value with
      | .ok v =>
        ∃ entered', Machine.Reaches ⟨.eval e :: tasks, values, entered⟩ ⟨tasks, v :: values, entered'⟩
      | .error err => ∃ last, Machine.Reaches ⟨.eval e :: tasks, values, entered⟩ last ∧
          last.step = .inr (.failed err) := by
  refine ⟨fun m halt entered => Machine.run_eq_iff, ?ends, ?runs, Machine.start_halts e,
    e.evaluate_eq_value, ?top⟩
  case ends => exact Subrelation.wf Machine.work_lt_of_steps (measure Machine.work).wf
  case runs =>
    intro m hm stuck
    have other := Machine.eq_ofResult_of_halts hm stuck
    cases hv : e.value <;> rw [hv] at other <;> cases other
  case top => exact fun tasks values entered => Machine.finishes_eval e tasks values entered

/-- The square of a variable that stands for three. -/
def Expr.squareOfThree : Expr :=
  .letIn "a" (.integer 3) (.binary .mul (.var "a" 1 (.integer 3)) (.var "a" 1 (.integer 3)))

theorem evaluate_squareOfThree :
    (Machine.start Expr.squareOfThree).step ≠ .inr .stuck ∧ Expr.squareOfThree.evaluate = .ok 9 ∧
      ∃ entered, Machine.Reaches ⟨[.eval Expr.squareOfThree, .apply .add], [5], #[]⟩
        ⟨[.apply .add], [9, 5], entered⟩ := by
  obtain ⟨-, -, runs, -, result, top⟩ := evaluate_refines_value Expr.squareOfThree
  have value : Expr.squareOfThree.value = .ok 9 := rfl
  have below := top [.apply .add] [5] #[]
  rw [value] at result below
  exact ⟨runs _ .refl, result, below⟩

end LetArith
