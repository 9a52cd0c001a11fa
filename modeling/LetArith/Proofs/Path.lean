import LetArith.Expr

/-!
# LetArith.Proofs.Path — the nodes of a tree and where they are

A node is reached from the root through operands, bound operands and bodies, and the path to it names
them.  What a variable stands for is not below it.  Nodes are numbered in the order of the text, and two
paths with the same number are one.

* `Expr.exists_preorder_of_at?`: the number of a node is its index among all nodes in the order of the
  text.
* `Expr.eq_of_offset_eq`: a node is known by its number.
* `Expr.encloses_cons_iff`: the `let`s that have a node in their bodies, from the root on.
-/

namespace LetArith
namespace Expr

/-! ### Paths -/

/-- What a node has below it. -/
inductive Part
  | lhs
  | rhs
  | bound
  | body
  deriving DecidableEq

/-- The part of a tree, if it has one. -/
def part? : Expr → Part → Option Expr
  | binary _ lhs _, .lhs => some lhs
  | binary _ _ rhs, .rhs => some rhs
  | letIn _ bound _, .bound => some bound
  | letIn _ _ body, .body => some body
  | _, _ => none

/-- The tree that a path leads to. -/
def at? (e : Expr) : List Part → Option Expr
  | [] => some e
  | part :: path => (e.part? part).bind fun d => d.at? path

/-- The number of nodes before a part, its root included. -/
def partOffset : Expr → Part → Nat
  | binary _ lhs _, .rhs => 1 + lhs.nodeCount
  | letIn _ bound _, .body => 1 + bound.nodeCount
  | _, _ => 1

/-- The number of nodes before the one that a path leads to, in the order of the text. -/
def offset (e : Expr) : List Part → Nat
  | [] => 0
  | part :: path => e.partOffset part + (e.part? part).elim 0 fun d => d.offset path

section

variable {e d d' : Expr} {part part' : Part} {path path' : List Part}

theorem at?_cons_eq_some_iff :
    e.at? (part :: path) = some d ↔ ∃ below, e.part? part = some below ∧ below.at? path = some d :=
  Option.bind_eq_some_iff

theorem at?_append (e : Expr) (path path' : List Part) :
    e.at? (path ++ path') = (e.at? path).bind fun d => d.at? path' := by
  induction path generalizing e with
  | nil => rfl
  | cons part path ih =>
    rw [List.cons_append, at?, at?, Option.bind_assoc]
    exact congrArg (Option.bind _) (funext ih)

theorem offset_cons (h : e.part? part = some d) (path : List Part) :
    e.offset (part :: path) = e.partOffset part + d.offset path := by
  rw [offset, h, Option.elim_some]

theorem partOffset_pos (e : Expr) (part : Part) : 0 < e.partOffset part := by
  unfold partOffset
  split <;> omega

/-- The nodes of a part stand together. -/
theorem exists_preorder_of_part? (h : e.part? part = some d) :
    ∃ before behind, e.preorder = before ++ (d.preorder ++ behind) ∧ before.length = e.partOffset part := by
  cases e with
  | integer value => cases h
  | binary op lhs rhs =>
    cases part with
    | lhs =>
      obtain rfl := Option.some.inj h
      exact ⟨[.binary op], rhs.preorder, rfl, rfl⟩
    | rhs =>
      obtain rfl := Option.some.inj h
      exact ⟨.binary op :: lhs.preorder, [], by simp [preorder],
        by simp [partOffset, length_preorder, Nat.add_comm]⟩
    | bound | body => cases h
  | letIn name bound body =>
    cases part with
    | bound =>
      obtain rfl := Option.some.inj h
      exact ⟨[.letIn name], body.preorder, rfl, rfl⟩
    | body =>
      obtain rfl := Option.some.inj h
      exact ⟨.letIn name :: bound.preorder, [], by simp [preorder],
        by simp [partOffset, length_preorder, Nat.add_comm]⟩
    | lhs | rhs => cases h
  | var name place operand => cases h

/-- By induction on the path: the nodes of the tree that it leads to stand together, and start at its
number. -/
theorem exists_preorder_of_at? (h : e.at? path = some d) :
    ∃ before behind, e.preorder = before ++ (d.preorder ++ behind) ∧ before.length = e.offset path := by
  induction path generalizing e with
  | nil =>
    obtain rfl := Option.some.inj h
    exact ⟨[], [], (List.append_nil _).symm, rfl⟩
  | cons part path ih =>
    obtain ⟨below, first, later⟩ := at?_cons_eq_some_iff.mp h
    obtain ⟨before, behind, split, start⟩ := exists_preorder_of_part? first
    obtain ⟨before', behind', split', start'⟩ := ih later
    refine ⟨before ++ before', behind' ++ behind, ?_, ?_⟩
    · rw [split, split']
      simp only [List.append_assoc]
    · rw [offset_cons first, List.length_append, start, start']

/-- A tree ends within the tree that it is in. -/
theorem offset_add_nodeCount_le (h : e.at? path = some d) : e.offset path + d.nodeCount ≤ e.nodeCount := by
  obtain ⟨before, behind, split, start⟩ := exists_preorder_of_at? h
  have total := congrArg List.length split
  simp only [List.length_append, length_preorder, start] at total
  omega

/-- Different parts have different numbers. -/
theorem partOffset_disjoint (h : e.part? part = some d) (h' : e.part? part' = some d')
    (other : part ≠ part') :
    e.partOffset part + d.nodeCount ≤ e.partOffset part' ∨
      e.partOffset part' + d'.nodeCount ≤ e.partOffset part := by
  cases e with
  | integer value => cases h
  | binary op lhs rhs => cases part <;> cases h <;> cases part' <;> cases h' <;> simp [partOffset] at other ⊢
  | letIn name bound body =>
    cases part <;> cases h <;> cases part' <;> cases h' <;> simp [partOffset] at other ⊢
  | var name place operand => cases h

/-- By induction on the path: a node is known by its number. -/
theorem eq_of_offset_eq (h : e.at? path = some d) (h' : e.at? path' = some d')
    (same : e.offset path = e.offset path') :
    path = path' := by
  induction path generalizing e path' with
  | nil =>
    cases path' with
    | nil => rfl
    | cons part' path' =>
      -- only the node itself has the first number
      have first := e.partOffset_pos part'
      simp only [offset] at same
      omega
  | cons part path ih =>
    cases path' with
    | nil =>
      have first := e.partOffset_pos part
      simp only [offset] at same
      omega
    | cons part' path' =>
      obtain ⟨below, first, later⟩ := at?_cons_eq_some_iff.mp h
      obtain ⟨below', first', later'⟩ := at?_cons_eq_some_iff.mp h'
      rw [offset_cons first, offset_cons first'] at same
      by_cases branch : part = part'
      · subst branch
        obtain rfl := Option.some.inj (first.symm.trans first')
        rw [ih later later' (by omega)]
      · -- each number is within its own part
        have inside := offset_add_nodeCount_le later
        have inside' := offset_add_nodeCount_le later'
        have size := d.nodeCount_pos
        have size' := d'.nodeCount_pos
        rcases partOffset_disjoint first first' branch with before | behind
        · omega
        · omega

end

/-! ### Enclosing bodies -/

/-- At `outer` there is a `let` of this name and operand, and the path goes through its body. -/
def Encloses (e : Expr) (name : String) (operand : Expr) (outer path : List Part) : Prop :=
  (∃ body, e.at? outer = some (letIn name operand body)) ∧ outer ++ [.body] <+: path

/-- The `let` is the tree itself, with the path through its body, or is in the part through which the
path goes. -/
theorem encloses_cons_iff {e : Expr} {name : String} {operand : Expr} {part : Part} {outer path : List Part} :
    e.Encloses name operand outer (part :: path) ↔
      (outer = [] ∧ part = .body ∧ ∃ body, e = letIn name operand body) ∨
        ∃ d outer', e.part? part = some d ∧ outer = part :: outer' ∧ d.Encloses name operand outer' path := by
  cases outer with
  | nil =>
    constructor
    · rintro ⟨⟨body, found⟩, through⟩
      exact .inl ⟨rfl, (List.cons_prefix_cons.mp through).1.symm, body, Option.some.inj found⟩
    · rintro (⟨-, rfl, body, rfl⟩ | ⟨d, outer', -, same, -⟩)
      · exact ⟨⟨body, rfl⟩, List.cons_prefix_cons.mpr ⟨rfl, List.nil_prefix⟩⟩
      · cases same
  | cons first outer =>
    constructor
    · rintro ⟨⟨body, found⟩, through⟩
      obtain ⟨rfl, behind⟩ := List.cons_prefix_cons.mp through
      obtain ⟨d, below, found⟩ := at?_cons_eq_some_iff.mp found
      exact .inr ⟨d, outer, below, rfl, ⟨body, found⟩, behind⟩
    · rintro (⟨same, -⟩ | ⟨d, outer', below, same, ⟨body, found⟩, through⟩)
      · cases same
      · obtain ⟨rfl, rfl⟩ := List.cons_eq_cons.mp same
        exact ⟨⟨body, at?_cons_eq_some_iff.mpr ⟨d, below, found⟩⟩, List.cons_prefix_cons.mpr ⟨rfl, through⟩⟩

end Expr
end LetArith
