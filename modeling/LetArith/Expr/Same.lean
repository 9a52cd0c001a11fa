import LetArith.Expr

/-!
# LetArith.Expr.Same — trees that say the same

Two trees are the same if they have the same operators, integers and names, and their variables stand
for operands that are the same.  Where an operand is kept does not matter, so that a program read twice
gives the same tree twice.

* `Expr.Same.refl`, `Expr.Same.symm`, `Expr.Same.trans`: this is an equivalence.
* `Expr.sameTest`: the test, with the proof that it answers the question.
-/

namespace LetArith
namespace Expr

/-- The trees differ at most in the places of their operands. -/
def Same : Expr → Expr → Prop
  | integer v, integer w => v = w
  | binary op l r, binary op' l' r' => op = op' ∧ Same l l' ∧ Same r r'
  | letIn name b e, letIn name' b' e' => name = name' ∧ Same b b' ∧ Same e e'
  | var name _ o, var name' _ o' => name = name' ∧ Same o o'
  | _, _ => False

namespace Same

theorem refl : ∀ e : Expr, Same e e
  | integer _ => rfl
  | binary _ l r => ⟨rfl, refl l, refl r⟩
  | letIn _ b e => ⟨rfl, refl b, refl e⟩
  | var _ _ o => ⟨rfl, refl o⟩

theorem of_eq {d e : Expr} (h : d = e) : Same d e := h ▸ refl d

theorem symm : ∀ {d e : Expr}, Same d e → Same e d
  | integer _, integer _, h => Eq.symm h
  | binary _ _ _, binary _ _ _, ⟨ho, hl, hr⟩ => ⟨ho.symm, symm hl, symm hr⟩
  | letIn _ _ _, letIn _ _ _, ⟨hn, hb, he⟩ => ⟨hn.symm, symm hb, symm he⟩
  | var _ _ _, var _ _ _, ⟨hn, ho⟩ => ⟨hn.symm, symm ho⟩

theorem trans : ∀ {d e f : Expr}, Same d e → Same e f → Same d f
  | integer _, integer _, integer _, h, h' => Eq.trans h h'
  | binary _ _ _, binary _ _ _, binary _ _ _, ⟨ho, hl, hr⟩, ⟨ho', hl', hr'⟩ =>
    ⟨ho.trans ho', trans hl hl', trans hr hr'⟩
  | letIn _ _ _, letIn _ _ _, letIn _ _ _, ⟨hn, hb, he⟩, ⟨hn', hb', he'⟩ =>
    ⟨hn.trans hn', trans hb hb', trans he he'⟩
  | var _ _ _, var _ _ _, var _ _ _, ⟨hn, ho⟩, ⟨hn', ho'⟩ => ⟨hn.trans hn', trans ho ho'⟩

end Same

/-- Whether two trees are the same, from left to right up to the first difference.  Two operands that
are one object are not looked into. -/
def sameTest : (d e : Expr) → { answer : Bool // answer = true ↔ Same d e }
  | integer v, integer w => ⟨v == w, by simp [Same]⟩
  | binary op l r, binary op' l' r' =>
    ⟨op == op' && ((sameTest l l').1 && (sameTest r r').1), by
      simp [Same, (sameTest l l').2, (sameTest r r').2]⟩
  | letIn name b e, letIn name' b' e' =>
    ⟨name == name' &&
        (withPtrEq b b' (fun _ => (sameTest b b').1) (fun h => (sameTest b b').2.mpr (Same.of_eq h)) &&
          (sameTest e e').1), by
      simp [Same, withPtrEq, (sameTest b b').2, (sameTest e e').2]⟩
  | var name _ o, var name' _ o' =>
    ⟨name == name' &&
        withPtrEq o o' (fun _ => (sameTest o o').1) (fun h => (sameTest o o').2.mpr (Same.of_eq h)), by
      simp [Same, withPtrEq, (sameTest o o').2]⟩
  | integer _, binary .. | integer _, letIn .. | integer _, var ..
  | binary .., integer _ | binary .., letIn .. | binary .., var ..
  | letIn .., integer _ | letIn .., binary .. | letIn .., var ..
  | var .., integer _ | var .., binary .. | var .., letIn .. => ⟨false, by simp [Same]⟩

/-- `sameTest` decides the question. -/
instance (d e : Expr) : Decidable (Same d e) := decidable_of_iff _ (sameTest d e).2

end Expr
end LetArith
