import LetArith.Evaluation
import Mathlib.Tactic.Linarith

/-!
# LetArith.Proofs.ExactArithmetic — evaluation beside unbounded integers

The course of a tree is what happens when it is computed over all integers, where no result is too
large: the applications that are met, in the order of evaluation, and the number at the end.  Only a
division by zero stops it.  Evaluation in 32 bits follows the course as long as every result fits, and
its error tells of the first application whose result does not.

* `Operator.toInt_applyWide`: 64 bits hold every result exactly.
* `Expr.yields_course`: a tree has the result that its course yields.
* `Course.Yields.unique`: a course yields one result.
* `evaluate_eq_exact`: so values and errors are those of exact arithmetic.
-/

namespace LetArith

/-- The integers of 32 bits. -/
def FitsInt32 (n : Int) : Prop := -2147483648 ≤ n ∧ n ≤ 2147483647

instance (n : Int) : Decidable (FitsInt32 n) := inferInstanceAs (Decidable (_ ∧ _))

theorem fitsInt32_toInt (v : Int32) : FitsInt32 v.toInt := by
  have lower := Int32.le_toInt v
  have upper := Int32.toInt_lt v
  exact ⟨by omega, by omega⟩

theorem exists_toInt_eq_iff {n : Int} : (∃ v : Int32, v.toInt = n) ↔ FitsInt32 n := by
  constructor
  · rintro ⟨v, rfl⟩
    exact fitsInt32_toInt v
  · rintro ⟨lower, upper⟩
    exact ⟨Int32.ofInt n, Int32.toInt_ofInt_of_le (by omega) (by omega)⟩

/-- An operator with the two numbers that it is applied to, of any size. -/
structure ExactApplication where
  op : Operator
  lhs : Int
  rhs : Int

namespace ExactApplication

/-- The exact result.  Division drops the fraction, and there is none by zero. -/
def result? : ExactApplication → Option Int
  | ⟨.add, lhs, rhs⟩ => some (lhs + rhs)
  | ⟨.sub, lhs, rhs⟩ => some (lhs - rhs)
  | ⟨.mul, lhs, rhs⟩ => some (lhs * rhs)
  | ⟨.div, lhs, rhs⟩ => if rhs = 0 then none else some (lhs.tdiv rhs)

/-- There is a result, and it is one of 32 bits. -/
def Fits (a : ExactApplication) : Prop := ∃ n, a.result? = some n ∧ FitsInt32 n

/-- The error tells of this application, with its exact numbers: a division by zero, or a result that is
too large. -/
def FailsWith (a : ExactApplication) : ArithmeticError → Prop
  | .divisionByZero lhs => a = ⟨.div, lhs.toInt, 0⟩
  | .overflow op lhs rhs =>
    a = ⟨op, lhs.toInt, rhs.toInt⟩ ∧ (op = .div → rhs.toInt ≠ 0) ∧ ∃ n, a.result? = some n ∧ ¬ FitsInt32 n

theorem FailsWith.not_fits {a : ExactApplication} {err : ArithmeticError} (h : a.FailsWith err) :
    ¬ a.Fits := by
  rintro ⟨n, hn, fits⟩
  cases err with
  | divisionByZero lhs =>
    obtain rfl := h
    cases hn
  | overflow op lhs rhs =>
    obtain ⟨-, -, m, hm, large⟩ := h
    obtain rfl := Option.some.inj (hn.symm.trans hm)
    exact large fits

/-- An application tells which error it fails with. -/
theorem FailsWith.unique {a : ExactApplication} {err err' : ArithmeticError} (h : a.FailsWith err)
    (h' : a.FailsWith err') : err = err' := by
  cases err with
  | divisionByZero lhs =>
    obtain rfl := h
    cases err' with
    | divisionByZero lhs' =>
      rw [Int32.toInt_inj.mp (ExactApplication.mk.inj h').2.1]
    | overflow op lhs' rhs' =>
      obtain ⟨same, nonzero, -⟩ := h'
      obtain ⟨rfl, -, zero⟩ := ExactApplication.mk.inj same
      exact absurd zero.symm (nonzero rfl)
  | overflow op lhs rhs =>
    obtain ⟨rfl, nonzero, -⟩ := h
    cases err' with
    | divisionByZero lhs' =>
      obtain ⟨rfl, -, zero⟩ := ExactApplication.mk.inj h'
      exact absurd zero (nonzero rfl)
    | overflow op' lhs' rhs' =>
      obtain ⟨rfl, hl, hr⟩ := ExactApplication.mk.inj h'.1
      rw [Int32.toInt_inj.mp hl, Int32.toInt_inj.mp hr]

end ExactApplication

/-! ### Operators -/

/-- A quotient is a number of 32 bits, unless the least one is divided by minus one. -/
theorem fitsInt32_tdiv {l r : Int} (hl : FitsInt32 l) (other : ¬(l = -2147483648 ∧ r = -1)) :
    FitsInt32 (l.tdiv r) := by
  obtain ⟨lower, upper⟩ := hl
  have bound := Int.natAbs_tdiv_le_natAbs l r
  by_cases least : l = -2147483648
  · subst least
    have ne : r ≠ -1 := fun h => other ⟨rfl, h⟩
    have halved : r = 0 ∨ r = 1 ∨ 2 ≤ r.natAbs := by omega
    rcases halved with rfl | rfl | two
    · exact ⟨by decide, by decide⟩
    · exact ⟨by decide, by decide⟩
    · have small : ((-2147483648 : Int).tdiv r).natAbs ≤ 2147483648 / 2 := by
        rw [Int.natAbs_tdiv]
        exact Nat.div_le_div_left two (by decide)
      exact ⟨by omega, by omega⟩
  · exact ⟨by omega, by omega⟩

namespace Operator

/-- In 64 bits the result is exact. -/
theorem toInt_applyWide (op : Operator) (lhs rhs : Int32) (h : op = .div → rhs.toInt ≠ 0) :
    (⟨op, lhs.toInt, rhs.toInt⟩ : ExactApplication).result? =
      some (op.applyWide lhs.toInt64 rhs.toInt64).toInt := by
  obtain ⟨ll, lu⟩ := fitsInt32_toInt lhs
  obtain ⟨rl, ru⟩ := fitsInt32_toInt rhs
  have exact64 {n : Int} (lower : -4611686018427387904 ≤ n) (upper : n ≤ 4611686018427387904) :
      n.bmod (2 ^ 64) = n := Int.bmod_eq_of_le (by omega) (by omega)
  cases op with
  | add =>
    simp only [ExactApplication.result?, applyWide, Int64.toInt_add, Int32.toInt_toInt64]
    rw [exact64 (by omega) (by omega)]
  | sub =>
    simp only [ExactApplication.result?, applyWide, Int64.toInt_sub, Int32.toInt_toInt64]
    rw [exact64 (by omega) (by omega)]
  | mul =>
    simp only [ExactApplication.result?, applyWide, Int64.toInt_mul, Int32.toInt_toInt64]
    rw [exact64 (by nlinarith) (by nlinarith)]
  | div =>
    simp only [ExactApplication.result?, applyWide, Int64.toInt_div, Int32.toInt_toInt64, if_neg (h rfl)]
    have bound := Int.natAbs_tdiv_le_natAbs lhs.toInt rhs.toInt
    rw [exact64 (by omega) (by omega)]

end Operator

/-! ### Courses -/

/-- The applications that are met, in order, and the number at the end, unless a division by zero stops
them. -/
structure Course where
  applications : List ExactApplication
  value? : Option Int

namespace Course

/-- What follows goes on with the number at the end, if there is one. -/
def andThen (c : Course) (f : Int → Course) : Course :=
  match c.value? with
  | none => c
  | some n => ⟨c.applications ++ (f n).applications, (f n).value?⟩

theorem andThen_of_some {c : Course} {n : Int} (h : c.value? = some n) (f : Int → Course) :
    c.andThen f = ⟨c.applications ++ (f n).applications, (f n).value?⟩ := by
  rw [andThen, h]

theorem andThen_of_none {c : Course} (h : c.value? = none) (f : Int → Course) : c.andThen f = c := by
  rw [andThen, h]

/-- The first application that does not fit. -/
def FirstFailure (c : Course) (a : ExactApplication) : Prop :=
  ∃ before behind, c.applications = before ++ a :: behind ∧ (∀ b ∈ before, b.Fits) ∧ ¬ a.Fits

/-- In 32 bits the course comes to this result: its number if all applications fit, and an error at the
first that does not. -/
def Yields (c : Course) : Except ArithmeticError Int32 → Prop
  | .ok v => c.value? = some v.toInt ∧ ∀ a ∈ c.applications, a.Fits
  | .error err => ∃ a, c.FirstFailure a ∧ a.FailsWith err

theorem FirstFailure.not_forall_fits {c : Course} {a : ExactApplication} (h : c.FirstFailure a) :
    ¬ ∀ b ∈ c.applications, b.Fits := by
  obtain ⟨before, behind, split, -, fails⟩ := h
  exact fun all => fails (all a (by simp [split]))

theorem FirstFailure.unique {c : Course} {a b : ExactApplication} (ha : c.FirstFailure a)
    (hb : c.FirstFailure b) :
    a = b := by
  obtain ⟨before, behind, split, fit, fails⟩ := ha
  obtain ⟨before', behind', split', fit', fails'⟩ := hb
  rw [split] at split'
  -- neither failure stands among the applications before the other one
  rcases List.append_eq_append_iff.mp split' with ⟨between, rfl, rest⟩ | ⟨between, rfl, rest⟩
  · cases between with
    | nil => exact (List.cons_eq_cons.mp rest).1
    | cons c between =>
      obtain ⟨rfl, -⟩ := List.cons_eq_cons.mp rest
      exact absurd (fit' a (by simp)) fails
  · cases between with
    | nil => exact (List.cons_eq_cons.mp rest).1.symm
    | cons c between =>
      obtain ⟨rfl, -⟩ := List.cons_eq_cons.mp rest
      exact absurd (fit b (by simp)) fails'

/-- A course yields one result. -/
theorem Yields.unique {c : Course} {r r' : Except ArithmeticError Int32} (h : c.Yields r) (h' : c.Yields r') :
    r = r' := by
  cases r with
  | ok v =>
    cases r' with
    | ok w => rw [Int32.toInt_inj.mp (Option.some.inj (h.1.symm.trans h'.1))]
    | error err =>
      obtain ⟨a, first, -⟩ := h'
      exact absurd h.2 first.not_forall_fits
  | error err =>
    obtain ⟨a, first, fails⟩ := h
    cases r' with
    | ok w => exact absurd h'.2 first.not_forall_fits
    | error err' =>
      obtain ⟨b, first', fails'⟩ := h'
      obtain rfl := first.unique first'
      rw [fails.unique fails']

/-- A value is handed on, and an error stays the first one. -/
theorem Yields.andThen {c : Course} {r : Except ArithmeticError Int32} {f : Int → Course}
    {g : Int32 → Except ArithmeticError Int32} (h : c.Yields r)
    (hf : ∀ v, r = .ok v → (f v.toInt).Yields (g v)) :
    (c.andThen f).Yields (r >>= g) := by
  cases r with
  | ok v =>
    obtain ⟨hv, all⟩ := h
    have next := hf v rfl
    show (c.andThen f).Yields (g v)
    rw [andThen_of_some hv]
    cases hg : g v with
    | ok w =>
      rw [hg] at next
      exact ⟨next.1, List.forall_mem_append.mpr ⟨all, next.2⟩⟩
    | error err =>
      rw [hg] at next
      obtain ⟨a, ⟨before, behind, split, fit, fails⟩, failed⟩ := next
      refine ⟨a, ⟨c.applications ++ before, behind, ?_, List.forall_mem_append.mpr ⟨all, fit⟩, fails⟩, failed⟩
      rw [split, List.append_assoc]
  | error err =>
    obtain ⟨a, ⟨before, behind, split, fit, fails⟩, failed⟩ := h
    show (c.andThen f).Yields (.error err)
    -- the exact course may go on behind a failure, but only with applications behind the failing one
    cases hv : c.value? with
    | none =>
      rw [andThen_of_none hv]
      exact ⟨a, ⟨before, behind, split, fit, fails⟩, failed⟩
    | some n =>
      rw [andThen_of_some hv]
      refine ⟨a, ⟨before, behind ++ (f n).applications, ?_, fit, fails⟩, failed⟩
      rw [split, List.append_assoc, List.cons_append]

end Course

/-- The course of one application. -/
def ExactApplication.course (a : ExactApplication) : Course := ⟨[a], a.result?⟩

theorem ExactApplication.firstFailure_course {a : ExactApplication} (h : ¬ a.Fits) :
    a.course.FirstFailure a :=
  ⟨[], [], rfl, List.forall_mem_nil _, h⟩

/-- An operator in 32 bits has the result that its exact application yields. -/
theorem Operator.yields_course (op : Operator) (lhs rhs : Int32) :
    (⟨op, lhs.toInt, rhs.toInt⟩ : ExactApplication).course.Yields (op.apply lhs rhs) := by
  unfold apply
  split
  · next zero =>
    obtain ⟨rfl, rfl⟩ := zero
    have fails : (⟨.div, lhs.toInt, 0⟩ : ExactApplication).FailsWith (.divisionByZero lhs) := rfl
    exact ⟨_, ExactApplication.firstFailure_course fails.not_fits, fails⟩
  · next other =>
    have nonzero : op = .div → rhs.toInt ≠ 0 := fun hop hr => other ⟨hop, Int32.toInt_inj.mp hr⟩
    have wide := toInt_applyWide op lhs rhs nonzero
    cases hn : narrow? (op.applyWide lhs.toInt64 rhs.toInt64) with
    | some v =>
      have same : v.toInt = (op.applyWide lhs.toInt64 rhs.toInt64).toInt := by
        rw [← Int32.toInt_toInt64, narrow?_eq_some_iff.mp hn]
      rw [← same] at wide
      exact ⟨wide, List.forall_mem_singleton.mpr ⟨v.toInt, wide, fitsInt32_toInt v⟩⟩
    | none =>
      have large : ¬ FitsInt32 (op.applyWide lhs.toInt64 rhs.toInt64).toInt := by
        intro fits
        obtain ⟨v, hv⟩ := exists_toInt_eq_iff.mpr fits
        rw [← Int32.toInt_toInt64, Int64.toInt_inj, ← narrow?_eq_some_iff, hn] at hv
        cases hv
      have fails : (⟨op, lhs.toInt, rhs.toInt⟩ : ExactApplication).FailsWith (.overflow op lhs rhs) :=
        ⟨rfl, nonzero, _, wide, large⟩
      exact ⟨_, ExactApplication.firstFailure_course fails.not_fits, fails⟩

namespace Expr

/-- The course of a tree: operands from left to right, the operand of a `let` before its body, and the
operand of a variable at every use. -/
def course : Expr → Course
  | integer value => ⟨[], some value.toInt⟩
  | binary op lhs rhs => lhs.course.andThen fun l => rhs.course.andThen fun r =>
    (ExactApplication.mk op l r).course
  | letIn _ bound body => bound.course.andThen fun _ => body.course
  | var _ _ operand => operand.course

/-- By induction on the tree. -/
theorem yields_course (e : Expr) : e.course.Yields e.value := by
  induction e with
  | integer value => exact ⟨rfl, List.forall_mem_nil _⟩
  | binary op lhs rhs ihl ihr =>
    exact ihl.andThen fun l _ => ihr.andThen fun r _ => op.yields_course l r
  | letIn name bound body ihb ihe => exact ihb.andThen fun _ _ => ihe
  | var name place operand ih => exact ih

end Expr

/-- Evaluation is exact.  There is a value exactly if every application that is met over all integers
has a result of 32 bits, and then it is the exact one.  Otherwise the error tells of the first
application that has none, with its exact numbers.  The only quotient that is too large is that of the
least number and minus one. -/
theorem evaluate_eq_exact (e : Expr) :
    ((∃ v, e.evaluate = .ok v) ↔ ∀ a ∈ e.course.applications, a.Fits) ∧
    (∀ v, e.evaluate = .ok v ↔ (∀ a ∈ e.course.applications, a.Fits) ∧ e.course.value? = some v.toInt) ∧
    (∀ err, e.evaluate = .error err ↔ ∃ a, e.course.FirstFailure a ∧ a.FailsWith err) ∧
    ∀ lhs rhs, e.evaluate = .error (.overflow .div lhs rhs) → lhs = -2147483648 ∧ rhs = -1 := by
  -- a course yields one result only, so that each part can be read from the result to the course and back
  have yields := e.yields_course
  rw [e.evaluate_eq_value]
  refine ⟨?some, ?value, ?error, ?division⟩
  case some =>
    constructor
    · rintro ⟨v, hv⟩
      rw [hv] at yields
      exact yields.2
    · intro all
      cases hv : e.value with
      | ok v => exact ⟨v, rfl⟩
      | error err =>
        rw [hv] at yields
        obtain ⟨a, first, -⟩ := yields
        exact absurd all first.not_forall_fits
  case value =>
    intro v
    constructor
    · intro hv
      rw [hv] at yields
      exact ⟨yields.2, yields.1⟩
    · rintro ⟨all, hv⟩
      have exact : e.course.Yields (.ok v) := ⟨hv, all⟩
      exact yields.unique exact
  case error =>
    intro err
    constructor
    · intro he
      rwa [he] at yields
    · intro first
      have exact : e.course.Yields (.error err) := first
      exact yields.unique exact
  case division =>
    intro lhs rhs he
    rw [he] at yields
    obtain ⟨a, -, rfl, nonzero, n, hn, large⟩ := yields
    rw [ExactApplication.result?, if_neg (nonzero rfl)] at hn
    obtain rfl := Option.some.inj hn
    have least : lhs.toInt = -2147483648 ∧ rhs.toInt = -1 :=
      Decidable.byContradiction fun other => large (fitsInt32_tdiv (fitsInt32_toInt lhs) other)
    exact ⟨Int32.toInt_inj.mp least.1, Int32.toInt_inj.mp least.2⟩

/-- A product that is too large, in front of a division by zero. -/
def Expr.largeProduct : Expr :=
  .binary .add (.binary .mul (.integer 65536) (.integer 65536)) (.binary .div (.integer 1) (.integer 0))

/-- The least number divided by minus one. -/
def Expr.leastNegated : Expr := .binary .div (.integer (-2147483648)) (.integer (-1))

theorem evaluate_largeProduct :
    Expr.largeProduct.course.applications = [⟨.mul, 65536, 65536⟩, ⟨.div, 1, 0⟩] ∧
      Expr.largeProduct.evaluate = .error (.overflow .mul 65536 65536) ∧
      Expr.leastNegated.evaluate = .error (.overflow .div (-2147483648) (-1)) := by
  have product : (⟨.mul, 65536, 65536⟩ : ExactApplication).FailsWith (.overflow .mul 65536 65536) := by
    have large : ¬ FitsInt32 (65536 * 65536) := by decide
    exact ⟨rfl, nofun, _, rfl, large⟩
  have quotient : (⟨.div, -2147483648, -1⟩ : ExactApplication).FailsWith
      (.overflow .div (-2147483648) (-1)) := by
    have large : ¬ FitsInt32 ((-2147483648 : Int).tdiv (-1)) := by decide
    exact ⟨rfl, fun _ => by decide, _, rfl, large⟩
  refine ⟨rfl, ((evaluate_eq_exact _).2.2.1 _).mpr ⟨_, ?_, product⟩,
    ((evaluate_eq_exact _).2.2.1 _).mpr ⟨_, ?_, quotient⟩⟩
  · exact ⟨[], [⟨.div, 1, 0⟩], rfl, List.forall_mem_nil _, product.not_fits⟩
  · exact ⟨[], [], rfl, List.forall_mem_nil _, quotient.not_fits⟩

end LetArith
