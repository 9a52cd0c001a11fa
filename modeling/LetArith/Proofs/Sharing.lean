import LetArith.Proofs.Calls
import LetArith.Proofs.Path

/-!
# LetArith.Proofs.Sharing — every variable shares the operand of its own `let`

A variable stands for the operand of the one `let` of its name that has it in its body, and shares it:
its place is the number of that operand in the tree.  No other `let` of the name, beside it or in an
operand, comes into question.

* `Derives.exists_part`: how the parts of a tree are derived, and in which scopes.
* `fresh_of_derives`: the `let`s of a tree have names that are not visible around the tree.
* `resolved_of_derives`: a variable stands for what the scope says, or for the operand of a `let` within
  the tree.
* `variables_share_bound_operand`: so in a program it stands for the operand of its `let`.
-/

namespace LetArith

open Grammar LetArith.Expr

namespace Grammar

variable {limit : Option Nat} {symbol : Symbol} {scope : Scope} {place level : Nat} {tokens : List Token}
  {e d : Expr} {name : String}

/-- A part of a tree is derived in the scope of the tree, unless it is the body of a `let`, where the
name is bound too. -/
theorem Derives.exists_part {part : Part} (h : Derives limit symbol scope place level tokens e)
    (below : e.part? part = some d) :
    ∃ (symbol' : Symbol) (scope' : Scope) (tokens' : List Token),
      Derives limit symbol' scope' (place + e.partOffset part) (level + 1) tokens' d ∧
        (part ≠ .body ∧ scope' = scope ∨
          ∃ name bound, part = .body ∧ e = .letIn name bound d ∧
            scope' = scope.bind name ⟨place + 1, bound⟩) := by
  induction h with
  | integer value => cases below
  | name free visible => cases below
  | expression inner ih => exact ih below
  | application op within left right =>
    cases part with
    | lhs =>
      obtain rfl := Option.some.inj below
      exact ⟨_, _, _, left, .inl ⟨by decide, rfl⟩⟩
    | rhs =>
      -- the second part is behind the node itself and the nodes of the first one
      obtain rfl := Option.some.inj below
      rw [Nat.add_assoc] at right
      exact ⟨_, _, _, right, .inl ⟨by decide, rfl⟩⟩
    | bound | body => cases below
  | letIn within free fresh operand inner =>
    cases part with
    | bound =>
      obtain rfl := Option.some.inj below
      exact ⟨_, _, _, operand, .inl ⟨by decide, rfl⟩⟩
    | body =>
      obtain rfl := Option.some.inj below
      rw [Nat.add_assoc] at inner
      exact ⟨_, _, _, inner, .inr ⟨_, _, rfl, rfl, rfl⟩⟩
    | lhs | rhs => cases below

theorem Derives.contains_eq_false {bound body : Expr}
    (h : Derives limit symbol scope place level tokens (.letIn name bound body)) :
    scope.contains name = false := by
  cases h with
  | expression inner =>
    cases inner with
    | letIn within free fresh operand inner => exact fresh
  | letIn within free fresh operand inner => exact fresh

theorem Derives.lookup?_eq_some {spot : Nat} {operand : Expr}
    (h : Derives limit symbol scope place level tokens (.var name spot operand)) :
    scope.lookup? name = some ⟨spot, operand⟩ := by
  cases h with
  | name free visible => exact visible
  | expression inner => cases inner

/-- By induction on the path: a `let` within the tree has a name that is not visible around it. -/
theorem fresh_of_derives (h : Derives limit symbol scope place level tokens e) {path : List Part}
    {bound body : Expr} (found : e.at? path = some (.letIn name bound body)) :
    scope.contains name = false := by
  induction path generalizing symbol scope place level tokens e with
  | nil =>
    obtain rfl := Option.some.inj found
    exact h.contains_eq_false
  | cons part path ih =>
    obtain ⟨d, below, found⟩ := at?_cons_eq_some_iff.mp found
    obtain ⟨_, _, _, derived, ⟨-, rfl⟩ | ⟨binder, operand, -, -, rfl⟩⟩ := h.exists_part below
    · exact ih derived found
    · have unknown := ih derived found
      rw [Scope.contains_bind, Bool.or_eq_false_iff] at unknown
      exact unknown.2

end Grammar

/-! ### What a variable stands for -/

/-- The `let` at `outer` is the only one of the name that has the path in its body, and its operand is
this one. -/
def Expr.BoundBy (e : Expr) (name : String) (operand : Expr) (outer path : List Part) : Prop :=
  e.Encloses name operand outer path ∧ ∀ other outer', e.Encloses name other outer' path → outer' = outer

/-- A variable of a tree that starts at `place`: no `let` of the tree has its name and has it in its
body, and it stands for what is visible; or one has, and it shares the operand of this one. -/
inductive Resolved (scope : Scope) (place : Nat) (e : Expr) (path : List Part) (name : String) :
    Operand → Prop
  | free {shared : Operand} (none : ∀ operand outer, ¬ e.Encloses name operand outer path)
      (visible : scope.lookup? name = some shared) : Resolved scope place e path name shared
  | bound {operand : Expr} {outer : List Part} (binds : e.BoundBy name operand outer path) :
      Resolved scope place e path name ⟨place + e.offset (outer ++ [.bound]), operand⟩

section

variable {scope : Scope} {place : Nat} {e d : Expr} {part : Part} {path : List Part} {name : String}
  {shared : Operand}

/-- In a part of a tree that is not the body of a `let`, variables stand for what they stand for in the
tree. -/
theorem Resolved.inPart (h : Resolved scope (place + e.partOffset part) d path name shared)
    (below : e.part? part = some d) (noBody : part ≠ .body) :
    Resolved scope place e (part :: path) name shared := by
  -- the tree itself encloses nothing in this part, so that the same `let`s enclose a variable there
  have encloses {operand : Expr} {outer : List Part}
      (enclosing : e.Encloses name operand outer (part :: path)) :
      ∃ outer', outer = part :: outer' ∧ d.Encloses name operand outer' path := by
    rcases encloses_cons_iff.mp enclosing with ⟨-, through, -⟩ | ⟨d', outer', below', rfl, inner⟩
    · exact absurd through noBody
    · obtain rfl := Option.some.inj (below.symm.trans below')
      exact ⟨outer', rfl, inner⟩
  cases h with
  | free none visible =>
    refine .free (fun operand outer enclosing => ?_) visible
    obtain ⟨outer', -, inner⟩ := encloses enclosing
    exact none operand outer' inner
  | @bound operand outer binds =>
    have number : place + e.partOffset part + d.offset (outer ++ [.bound]) =
        place + e.offset (part :: outer ++ [.bound]) := by
      rw [List.cons_append, offset_cons below, Nat.add_assoc]
    rw [number]
    refine .bound ⟨encloses_cons_iff.mpr (.inr ⟨d, outer, below, rfl, binds.1⟩),
      fun other outer' enclosing => ?_⟩
    obtain ⟨inner', rfl, inner⟩ := encloses enclosing
    rw [binds.2 other inner' inner]

/-- In the body of a `let`, a variable of its name stands for its operand. -/
theorem Resolved.inBody {binder : String} {bound body : Expr}
    (h : Resolved (scope.bind binder ⟨place + 1, bound⟩) (place + 1 + bound.nodeCount) body path name shared)
    (fresh : ∀ outer operand inner, body.at? outer ≠ some (.letIn binder operand inner)) :
    Resolved scope place (.letIn binder bound body) (.body :: path) name shared := by
  cases h with
  | free none visible =>
    rw [Scope.lookup?_bind] at visible
    by_cases same : binder = name
    · subst same
      rw [if_pos rfl] at visible
      obtain rfl := Option.some.inj visible
      -- the operand of the `let` is the node behind it
      have found : Resolved scope place (.letIn binder bound body) (.body :: path) binder
          ⟨place + (Expr.letIn binder bound body).offset ([] ++ [.bound]), bound⟩ := by
        refine .bound ⟨encloses_cons_iff.mpr (.inl ⟨rfl, rfl, body, rfl⟩), fun other outer' enclosing => ?_⟩
        rcases encloses_cons_iff.mp enclosing with ⟨rfl, -⟩ | ⟨d, inner', below, -, inner⟩
        · rfl
        · obtain rfl : body = d := Option.some.inj below
          exact absurd inner (none other inner')
      exact found
    · rw [if_neg same] at visible
      refine .free (fun operand outer enclosing => ?_) visible
      rcases encloses_cons_iff.mp enclosing with ⟨-, -, rest, whole⟩ | ⟨d, inner', below, -, inner⟩
      · injection whole with binder_eq
        exact same binder_eq
      · obtain rfl : body = d := Option.some.inj below
        exact none operand inner' inner
  | @bound operand outer binds =>
    have below : (Expr.letIn binder bound body).part? .body = some body := rfl
    have number : place + 1 + bound.nodeCount + body.offset (outer ++ [.bound]) =
        place + (Expr.letIn binder bound body).offset (.body :: outer ++ [.bound]) := by
      rw [List.cons_append, offset_cons below, partOffset]
      omega
    rw [number]
    refine .bound ⟨encloses_cons_iff.mpr (.inr ⟨body, outer, below, rfl, binds.1⟩),
      fun other outer' enclosing => ?_⟩
    rcases encloses_cons_iff.mp enclosing with ⟨-, -, rest, whole⟩ | ⟨d, inner', below', rfl, inner⟩
    · -- the `let` itself has another name than the one in its body
      injection whole with binder_eq
      subst binder_eq
      obtain ⟨⟨⟨inside, found⟩, -⟩, -⟩ := binds
      exact absurd found (fresh outer operand inside)
    · obtain rfl : body = d := Option.some.inj below'
      rw [binds.2 other inner' inner]

end

/-- By induction on the path. -/
theorem Grammar.resolved_of_derives {limit : Option Nat} {symbol : Symbol} {scope : Scope} {place level : Nat}
    {tokens : List Token} {e : Expr} (h : Derives limit symbol scope place level tokens e) {path : List Part}
    {name : String} {spot : Nat} {operand : Expr} (found : e.at? path = some (.var name spot operand)) :
    Resolved scope place e path name ⟨spot, operand⟩ := by
  induction path generalizing symbol scope place level tokens e with
  | nil =>
    obtain rfl := Option.some.inj found
    refine .free (fun operand outer enclosing => ?_) h.lookup?_eq_some
    obtain ⟨-, through⟩ := enclosing
    exact absurd (List.prefix_nil.mp through) (by simp)
  | cons part path ih =>
    obtain ⟨d, below, found⟩ := at?_cons_eq_some_iff.mp found
    obtain ⟨_, _, _, derived, ⟨noBody, rfl⟩ | ⟨binder, bound, rfl, rfl, rfl⟩⟩ := h.exists_part below
    · exact (ih derived found).inPart below noBody
    · have number : place + (Expr.letIn binder bound d).partOffset .body = place + 1 + bound.nodeCount := by
        rw [partOffset, Nat.add_assoc]
      rw [number] at derived
      refine (ih derived found).inBody fun outer other inside again => ?_
      have unknown := fresh_of_derives derived again
      simp [Scope.contains_bind] at unknown

/-! ### Programs -/

/-- A path through the body of a `let` is not one through its operand. -/
theorem Expr.Encloses.not_bound {e operand : Expr} {name : String} {outer path : List Part}
    (h : e.Encloses name operand outer path) : ¬ outer ++ [.bound] <+: path := by
  intro through
  obtain ⟨-, inside⟩ := h
  have same := (List.prefix_of_prefix_length_le through inside (by simp)).eq_of_length (by simp)
  simp at same

/-- The operand of a `let` is found where its place says, and nothing else is. -/
theorem Expr.Encloses.eq_of_offset_eq {e operand d : Expr} {name : String} {outer path other : List Part}
    (h : e.Encloses name operand outer path) (found : e.at? other = some d)
    (same : e.offset other = e.offset (outer ++ [.bound])) : other = outer ++ [.bound] := by
  obtain ⟨⟨body, there⟩, -⟩ := h
  have bound : e.at? (outer ++ [.bound]) = some operand := by
    rw [at?_append, there]
    rfl
  exact Expr.eq_of_offset_eq found bound same

/-- A variable of a program has exactly one `let` of its name that has it in its body, and not in its
operand.  The variable shares the operand of this `let`: its place is the number of that operand, and of
no other node.  Whenever the reader calls one of its functions, the visible names are those of the
`let`s whose bodies are being read; they are different names, and none is reserved. -/
theorem variables_share_bound_operand :
    (∀ text e, Expr.parse text = .ok e →
      ∀ path name place operand, e.at? path = some (.var name place operand) →
      ∃ outer, e.Encloses name operand outer path ∧ ¬ outer ++ [.bound] <+: path ∧
        place = e.offset (outer ++ [.bound]) ∧
        (∀ operand' outer', e.Encloses name operand' outer' path → outer' = outer) ∧
        ∀ other d, e.at? other = some d → e.offset other = place → other = outer ++ [.bound]) ∧
    ∀ text call s, ParseM.Reached text call s → ∃ front, ParseM.Behind text front s ∧
      call.scope.names = openBodies (front.map Lexeme.token) ∧ call.scope.names.Nodup ∧
      ∀ name ∈ call.scope.names, Token.IsName name ∧ Keyword.ofText? name = none := by
  refine ⟨fun text e h path name place operand found => ?_, fun text call s h => ?_⟩
  · obtain ⟨lexemes, -, derived⟩ := Expr.parse_eq_ok_iff.mp h
    generalize ho : Operand.mk place operand = shared
    have resolved : Resolved .empty 0 e path name shared := ho ▸ resolved_of_derives derived found
    cases resolved with
    | free none visible => cases visible
    | @bound operand' outer binds =>
      obtain ⟨rfl, rfl⟩ := Operand.mk.inj ho
      rw [Nat.zero_add]
      exact ⟨outer, binds.1, binds.1.not_bound, rfl, binds.2,
        fun other d there same => binds.1.eq_of_offset_eq there same⟩
  · obtain ⟨forms, ⟨front, behind, same⟩, -, names, wellNamed, -⟩ := h.sits
    refine ⟨front, behind, ?_, wellNamed.nodup, wellNamed.free⟩
    rw [names, openBodies, same]

/-- One `let` may stand beside another of the same name, or in its operand, and variables are not mistaken. -/
theorem variables_share_bound_operand_siblings :
    (∃ e, Expr.parse "add(let(a,1,add(a,2)),let(a,let(a,3,add(a,a)),add(a,a)))" = .ok e ∧
      e.at? [.rhs, .bound, .body, .lhs] = some (.var "a" 8 (.integer 3)) ∧
      e.Encloses "a" (.integer 3) [.rhs, .bound] [.rhs, .bound, .body, .lhs]) ∧
    ∃ s front,
      ParseM.Reached "let(a,1,add(a,a))" (.expression 999 (Scope.empty.bind "a" ⟨1, .integer 1⟩) 2) s ∧
      ParseM.Behind "let(a,1,add(a,a))" front s ∧ openBodies (front.map Lexeme.token) = ["a"] := by
  constructor
  · have read : Expr.parse "add(let(a,1,add(a,2)),let(a,let(a,3,add(a,a)),add(a,a)))" = .ok (.binary .add
        (.letIn "a" (.integer 1) (.binary .add (.var "a" 2 (.integer 1)) (.integer 2)))
        (.letIn "a"
          (.letIn "a" (.integer 3) (.binary .add (.var "a" 8 (.integer 3)) (.var "a" 8 (.integer 3))))
          (.binary .add
            (.var "a" 7
              (.letIn "a" (.integer 3) (.binary .add (.var "a" 8 (.integer 3)) (.var "a" 8 (.integer 3)))))
            (.var "a" 7
              (.letIn "a" (.integer 3)
                (.binary .add (.var "a" 8 (.integer 3)) (.var "a" 8 (.integer 3)))))))) := by
      decide +kernel
    refine ⟨_, read, rfl, ?_⟩
    obtain ⟨outer, encloses, -, -, -, known⟩ :=
      variables_share_bound_operand.1 _ _ read [.rhs, .bound, .body, .lhs] "a" 8 _ rfl
    have place : [Part.rhs, .bound, .bound] = outer ++ [.bound] := known _ (.integer 3) rfl rfl
    obtain rfl : [.rhs, .bound] = outer := List.append_cancel_right place
    exact encloses
  · have first : Lookahead.ofCursor (.ofString "let(a,1,add(a,a))") =
        .ok ⟨⟨.word "let", ⟨0, 3⟩⟩, ⟨"(a,1,add(a,a))".toList, 3⟩⟩ := by decide +kernel
    have start := ParseM.Reached.start first rfl
    have binding := start.call (.letIn rfl (by decide) : ParseM.Makes _ _ (.letBinding 999 _ _) _)
    have inside := binding.call (.body rfl rfl rfl rfl rfl rfl rfl)
    obtain ⟨front, behind, names, -⟩ := variables_share_bound_operand.2 _ _ _ inside
    exact ⟨_, front, inside, behind, names.symm⟩

end LetArith
