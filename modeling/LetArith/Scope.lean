import LetArith.Expr

/-!
# LetArith.Scope — the variables that are visible

A scope is the chain of bindings that led to it, the nearest one first.  Binding a name makes a new
scope and leaves the old one as it was, so that a name bound in one part of a program is unknown beside
it.

* `Scope.lookup?_bind`: a name is looked up in its nearest binding.
* `Scope.contains_eq_isSome`: a name is visible exactly when it can be looked up.
-/

namespace LetArith

/-- An operand that a `let` shares with its variables, and the place where it is written. -/
structure Operand where
  place : Nat
  expr : Expr

/-- A name and the operand that it stands for. -/
structure Binding where
  name : String
  operand : Operand

/-- The visible bindings, the nearest one first. -/
structure Scope where
  bindings : List Binding

namespace Scope

/-- No name is visible. -/
def empty : Scope := ⟨[]⟩

/-- The scope in which `name` stands for `operand` and every other name for what it stood for before. -/
def bind (s : Scope) (name : String) (operand : Operand) : Scope := ⟨⟨name, operand⟩ :: s.bindings⟩

/-- What a name stands for. -/
def lookup? (s : Scope) (name : String) : Option Operand :=
  (s.bindings.find? (fun binding => binding.name == name)).map Binding.operand

/-- The name is visible. -/
def contains (s : Scope) (name : String) : Bool := s.bindings.any (fun binding => binding.name == name)

@[simp] theorem lookup?_empty (name : String) : empty.lookup? name = none := rfl

theorem lookup?_bind (s : Scope) (name other : String) (operand : Operand) :
    (s.bind name operand).lookup? other = if name = other then some operand else s.lookup? other := by
  by_cases h : name = other <;> simp [bind, lookup?, h]

theorem contains_eq_isSome (s : Scope) (name : String) : s.contains name = (s.lookup? name).isSome := by
  rw [contains, lookup?, Option.isSome_map, Bool.eq_iff_iff, List.any_eq_true, List.find?_isSome]

theorem contains_bind (s : Scope) (name other : String) (operand : Operand) :
    (s.bind name operand).contains other = (name == other || s.contains other) := rfl

end Scope
end LetArith
