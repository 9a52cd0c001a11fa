import LetArith.Operator

/-!
# LetArith.Expr — expression trees

A tree holds integers, operators with two operands, `let` with a name, a bound operand and a body, and
variables.  A variable holds the operand that it stands for, so that a tree means something by itself.
The operand of a `let` is shared with all variables that refer to it: `place` says where the shared
operand is written, and two holders share their operand exactly if its place is the same.

* `Expr.size_eq_nodeCount`: the tree as it is written has as many nodes as the count without recursion
  finds.
* `Expr.preorder`: the nodes in the order of the text.  In a tree that was read from a text, the place
  of an operand is the index of its root in this list.
-/

namespace LetArith

/-- An expression, or an operand of one. -/
inductive Expr
  | integer (value : Int32)
  | binary (op : Operator) (lhs rhs : Expr)
  | letIn (name : String) (bound body : Expr)
  | var (name : String) (place : Nat) (operand : Expr)
  deriving DecidableEq, Inhabited

namespace Expr

/-! ### Size -/

/-- The number of nodes that are written: a variable counts as one, whatever it stands for. -/
def nodeCount : Expr → Nat
  | integer _ => 1
  | binary _ lhs rhs => 1 + lhs.nodeCount + rhs.nodeCount
  | letIn _ bound body => 1 + bound.nodeCount + body.nodeCount
  | var _ _ _ => 1

theorem nodeCount_pos (e : Expr) : 0 < e.nodeCount := by
  cases e <;> simp only [nodeCount] <;> omega

/-- The number of nodes of several trees together. -/
def totalNodeCount : List Expr → Nat
  | [] => 0
  | e :: others => e.nodeCount + totalNodeCount others

/-- Counts the nodes of the pending trees on top of `count`. -/
def countPending (count : Nat) : List Expr → Nat
  | [] => count
  | integer _ :: pending => countPending (count + 1) pending
  | binary _ lhs rhs :: pending => countPending (count + 1) (rhs :: lhs :: pending)
  | letIn _ bound body :: pending => countPending (count + 1) (body :: bound :: pending)
  | var _ _ _ :: pending => countPending (count + 1) pending
termination_by pending => totalNodeCount pending
decreasing_by all_goals simp only [totalNodeCount, nodeCount]; omega

/-- The number of nodes that are written, counted with a list of pending trees, so that depth costs no
stack. -/
def size (e : Expr) : Nat := countPending 0 [e]

theorem countPending_eq (count : Nat) (pending : List Expr) :
    countPending count pending = count + totalNodeCount pending := by
  fun_induction countPending count pending with
  | case1 => rfl
  | case2 count value pending ih => simp only [ih, totalNodeCount, nodeCount]; omega
  | case3 count op lhs rhs pending ih => simp only [ih, totalNodeCount, nodeCount]; omega
  | case4 count name bound body pending ih => simp only [ih, totalNodeCount, nodeCount]; omega
  | case5 count name place operand pending ih => simp only [ih, totalNodeCount, nodeCount]; omega

theorem size_eq_nodeCount (e : Expr) : e.size = e.nodeCount := by
  simp [size, countPending_eq, totalNodeCount]

/-! ### Nodes -/

/-- One node of a tree, without what is below it. -/
inductive Node
  | integer (value : Int32)
  | binary (op : Operator)
  | letIn (name : String)
  | var (name : String) (place : Nat)
  deriving DecidableEq

/-- The nodes that are written, in the order of the text. -/
def preorder : Expr → List Node
  | integer value => [.integer value]
  | binary op lhs rhs => .binary op :: (lhs.preorder ++ rhs.preorder)
  | letIn name bound body => .letIn name :: (bound.preorder ++ body.preorder)
  | var name place _ => [.var name place]

theorem length_preorder (e : Expr) : e.preorder.length = e.nodeCount := by
  induction e with
  | integer value => rfl
  | binary op lhs rhs ihl ihr =>
    simp only [preorder, nodeCount, List.length_cons, List.length_append, ihl, ihr]; omega
  | letIn name bound body ihb ihe =>
    simp only [preorder, nodeCount, List.length_cons, List.length_append, ihb, ihe]; omega
  | var name place operand _ => rfl

/-! ### Text -/

/-- The tree as a program writes it. -/
def text : Expr → String
  | integer value => toString value.toInt
  | binary op lhs rhs => op.word ++ "(" ++ lhs.text ++ ", " ++ rhs.text ++ ")"
  | letIn name bound body => "let(" ++ name ++ ", " ++ bound.text ++ ", " ++ body.text ++ ")"
  | var name _ _ => name

end Expr
end LetArith
