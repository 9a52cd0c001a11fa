/-!
# LetArith.Operator — the four operators of the language
-/

namespace LetArith

/-- An operator on two integers. -/
inductive Operator
  | add
  | sub
  | mul
  | div
  deriving DecidableEq

namespace Operator

/-- Every operator, in the order in which messages list them. -/
def all : List Operator := [.add, .sub, .mul, .div]

/-- The word that a program uses for the operator. -/
def word : Operator → String
  | .add => "add"
  | .sub => "sub"
  | .mul => "mult"
  | .div => "div"

theorem mem_all (op : Operator) : op ∈ all := by
  cases op <;> decide

end Operator
end LetArith
