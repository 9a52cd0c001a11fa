import LetArith.Operator

/-!
# LetArith.Arithmetic — operators on 32-bit integers

No operator wraps.  The result is computed in 64 bits, where it always fits, and has to be the same
number in 32 bits.  Division drops the fraction; dividing by zero is an error of its own and is looked
at first.

* `narrow?_eq_some_iff`: a result in 64 bits is kept exactly if it is some 32-bit integer.
-/

namespace LetArith

/-- Why an operator has no value. -/
inductive ArithmeticError
  | overflow (op : Operator) (lhs rhs : Int32)
  | divisionByZero (lhs : Int32)
  deriving DecidableEq

/-- What an operator with its two operands looks like in a message. -/
def Operator.applicationText (op : Operator) (lhs rhs : Int32) : String :=
  op.word ++ "(" ++ toString lhs.toInt ++ ", " ++ toString rhs.toInt ++ ")"

/-- What went wrong, with the operator and its operands. -/
def ArithmeticError.message : ArithmeticError → String
  | .overflow op lhs rhs => "integer overflow while computing " ++ op.applicationText lhs rhs
  | .divisionByZero lhs => "division by zero in " ++ Operator.div.applicationText lhs 0

/-- The same number in 32 bits, if it fits. -/
def narrow? (n : Int64) : Option Int32 := if n.toInt32.toInt64 = n then some n.toInt32 else none

theorem narrow?_eq_some_iff {n : Int64} {v : Int32} : narrow? n = some v ↔ v.toInt64 = n := by
  unfold narrow?
  constructor
  · intro h
    split at h
    · next fits => rw [← Option.some.inj h, fits]
    · cases h
  · rintro rfl
    rw [Int32.toInt32_toInt64, if_pos rfl]

namespace Operator

/-- The result in 64 bits. -/
def applyWide : Operator → Int64 → Int64 → Int64
  | .add, lhs, rhs => lhs + rhs
  | .sub, lhs, rhs => lhs - rhs
  | .mul, lhs, rhs => lhs * rhs
  | .div, lhs, rhs => lhs / rhs

/-- The value of the operator at two integers. -/
def apply (op : Operator) (lhs rhs : Int32) : Except ArithmeticError Int32 :=
  if op = .div ∧ rhs = 0 then .error (.divisionByZero lhs)
  else
    match narrow? (op.applyWide lhs.toInt64 rhs.toInt64) with
    | some value => .ok value
    | none => .error (.overflow op lhs rhs)

end Operator
end LetArith
