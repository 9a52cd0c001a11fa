import LetArith.Proofs.Calls
import LetArith.Proofs.Counting
import Mathlib.Logic.Relation

/-!
# LetArith.Proofs.Depth — the counter wherever something is called

The counting reader makes the calls that the reader makes.  Wherever it makes one, its counter tells how
many operators and `let`s are open, and between two expressions that stand inside one another it takes a
token.

* `CountM.Call.exists_ends`: a call ends, and the counter is as before.
* `CountM.Makes.makes`, `CountM.exists_makes`: the two readers make the same calls.
* `CountM.Reached.depth_eq`: the counter tells how many forms are open.
* `CountM.Nests.took`: tokens are taken between two expressions that stand inside one another.
* `counter_follows_nesting`: so the counter follows the nesting of the text.
-/

namespace LetArith

/-! ### Calls of the reader -/

/-- The steps before a call take tokens, and first of all the word that was looked at. -/
theorem ParseM.Makes.took {c d : ParseM.Call} {s t : ParseState} (made : ParseM.Makes c s d t) :
    ∃ front, ParseM.Took s front t ∧ c.pending ≤ front.length := by
  have tracks (levels : Nat) := ParseM.tracks_operand (ParseM.tracks_expression levels)
  -- only behind the word of a form are there steps before a call, and they start with taking the word
  cases made with
  | operator ahead keyword => exact ⟨[], .nil s, Nat.le_refl _⟩
  | letIn ahead keyword => exact ⟨[], .nil s, Nat.le_refl _⟩
  | nested ahead reserved => exact ⟨[], .nil s, Nat.le_refl _⟩
  | lhs h₁ h₂ =>
    exact ⟨_, (took_of_expect (by decide) h₁).trans (took_of_expect (by decide) h₂), Nat.le_add_left 1 _⟩
  | rhs h₁ h₂ h₃ h₄ =>
    have opened := (took_of_expect (by decide) h₁).trans (took_of_expect (by decide) h₂)
    obtain ⟨left, taken⟩ := (tracks _ _ _ _).ok h₃
    exact ⟨_, (opened.trans taken).trans (took_of_expect (by decide) h₄), Nat.le_add_left 1 _⟩
  | value h₁ h₂ h₃ h₄ =>
    have opened := (took_of_expect (by decide) h₁).trans (took_of_expect (by decide) h₂)
    obtain ⟨name, named⟩ := (tracks_newName _ _).ok h₃
    exact ⟨_, (opened.trans named).trans (took_of_expect (by decide) h₄), Nat.le_add_left 1 _⟩
  | body h₁ h₂ h₃ h₄ h₅ h₆ h₇ =>
    have opened := (took_of_expect (by decide) h₁).trans (took_of_expect (by decide) h₂)
    obtain ⟨name, named⟩ := (tracks_newName _ _).ok h₃
    obtain ⟨value, computed⟩ := (tracks _ _ _ _).ok h₅
    obtain ⟨nothing, bound⟩ := (tracks_recordBound _ _ _).ok h₇
    have separated := (opened.trans named).trans (took_of_expect (by decide) h₄)
    exact ⟨_, ((separated.trans computed).trans (took_of_expect (by decide) h₆)).trans bound,
      Nat.le_add_left 1 _⟩

namespace CountM

/-! ### Calls of the counting reader -/

/-- A call of one of the functions of the counting reader. -/
inductive Call
  | expression (scope : Scope) (place : Nat)
  | operand (scope : Scope) (place : Nat)
  | application (op : Operator) (scope : Scope) (place : Nat)
  | letBinding (scope : Scope) (place : Nat)

namespace Call

/-- What is called. -/
def run (limit : Option Nat) (fuel : Nat) : Call → CountM Expr
  | expression scope place => CountM.expression limit fuel scope place
  | operand scope place => CountM.operand (CountM.expression limit fuel) scope place
  | application op scope place => CountM.application (CountM.expression limit fuel) op scope place
  | letBinding scope place => CountM.letBinding (CountM.expression limit fuel) scope place

/-- The same call of the reader, which is told the levels. -/
def withLevels (levels : Nat) : Call → ParseM.Call
  | expression scope place => .expression levels scope place
  | operand scope place => .operand levels scope place
  | application op scope place => .application levels op scope place
  | letBinding scope place => .letBinding levels scope place

/-- How many forms the word ahead opens, where it was looked at before the call. -/
def pending : Call → Nat
  | expression _ _ => 0
  | operand _ _ => 0
  | application _ _ _ => 1
  | letBinding _ _ => 1

theorem levels_withLevels (levels : Nat) (c : Call) : (c.withLevels levels).levels = levels := by
  cases c <;> rfl

theorem pending_withLevels (levels : Nat) (c : Call) : (c.withLevels levels).pending = c.pending := by
  cases c <;> rfl

/-- With enough fuel the call comes to this. -/
def Ends (limit : Option Nat) (c : Call) (s : CountState) (found : Except ParseError Expr × CountState) :
    Prop :=
  ∃ enough, ∀ fuel, enough ≤ fuel → c.run limit fuel s = some found

end Call

variable {limit : Option Nat} {levels slack n : Nat} {c d : Call} {s t : CountState}

theorem exists_fits (limit : Option Nat) (slack : Nat) (s : CountState) :
    ∃ levels, Fits limit levels slack s := by
  cases limit with
  | none =>
    refine ⟨s.reader.ahead.left, fun n hn => ?_, fun _ => Nat.le_add_right _ _⟩
    exact absurd hn.symm (Option.some_ne_none n)
  | some n => exact ⟨_, fits_some rfl⟩

/-- Below the limit and with a word ahead, a level is left. -/
theorem Fits.exists_succ {text : String} (fits : Fits limit levels 0 s)
    (ahead : s.reader.ahead.held.token = .word text)
    (shallow : limit.any (· ≤ s.depth) = false) : ∃ less, levels = less + 1 := by
  refine Nat.exists_eq_add_one_of_ne_zero fun spent => ?_
  subst spent
  cases limit with
  | none =>
    have more : 0 < s.reader.ahead.left := by simp [Lookahead.left, ahead]
    exact absurd (fits.unlimited rfl) (Nat.not_le_of_gt more)
  | some n =>
    have deep : n ≤ s.depth := Nat.le_of_sub_eq_zero (fits.limited n rfl)
    simp [deep] at shallow

theorem Fits.reads {α : Type} {m : ParseM α} {x : α} {r : ParseState} (fits : Fits limit levels 0 s)
    (tracks : ∀ s, ParseM.Tracks m s) (h : m s.reader = .ok x r) :
    Fits limit levels 0 { s with reader := r } :=
  fits.tracked tracks h rfl

/-- Behind the word ahead and a parenthesis no slack is needed. -/
theorem Fits.opened {s₁ s₂ : ParseState} {word opening : Lexeme} (fits : Fits limit levels 1 s)
    (h₁ : ParseM.expect .word s.reader = .ok word s₁) (h₂ : ParseM.expect .openParen s₁ = .ok opening s₂) :
    Fits limit levels 0 { s with reader := s₂ } := by
  have named : Fits limit levels 0 { s with reader := s₁ } :=
    fits.behind (ParseM.took_of_expect (by decide) h₁) rfl
  exact named.reads (ParseM.tracks_expect (by decide)) h₂

/-- Nor is it behind the head of a `let`. -/
theorem Fits.head {scope : Scope} {s₁ s₂ s₃ s₄ : ParseState} {word opening comma : Lexeme} {name : String}
    (fits : Fits limit levels 1 s) (h₁ : ParseM.expect .word s.reader = .ok word s₁)
    (h₂ : ParseM.expect .openParen s₁ = .ok opening s₂) (h₃ : ParseM.newName scope s₂ = .ok name s₃)
    (h₄ : ParseM.expect .comma s₃ = .ok comma s₄) : Fits limit levels 0 { s with reader := s₄ } :=
  ((fits.opened h₁ h₂).reads (ParseM.tracks_newName scope) h₃).reads (ParseM.tracks_expect (by decide)) h₄

namespace Call

/-- A call follows the same call with the levels that are left. -/
theorem follows_run (c : Call) {fuel : Nat} (enough : levels < fuel) :
    Follows limit levels c.pending (c.run limit fuel) (c.withLevels levels).run := by
  have below (scope : Scope) (place : Nat) : Follows limit levels 0 (CountM.expression limit fuel scope place)
      (ParseM.expression levels scope place) := follows_expression enough scope place
  have tracks := ParseM.tracks_expression levels
  cases c with
  | expression scope place => exact below scope place
  | operand scope place => exact follows_operand below scope place
  | application op scope place => exact follows_application below tracks op scope place
  | letBinding scope place => exact follows_letBinding below tracks scope place

theorem agrees_run (c : Call) {fuel fuel' : Nat} (le : fuel ≤ fuel') :
    Agrees (c.run limit fuel) (c.run limit fuel') := by
  cases c with
  | expression scope place => exact agrees_expression le scope place
  | operand scope place => exact agrees_operand (agrees_expression le) scope place
  | application op scope place => exact agrees_application (agrees_expression le) op scope place
  | letBinding scope place => exact agrees_letBinding (agrees_expression le) scope place

theorem Ends.unique {found found' : Except ParseError Expr × CountState} (h : c.Ends limit s found)
    (h' : c.Ends limit s found') : found = found' := by
  obtain ⟨enough, run⟩ := h
  obtain ⟨enough', run'⟩ := h'
  have first := run (max enough enough') (Nat.le_max_left _ _)
  have second := run' (max enough enough') (Nat.le_max_right _ _)
  exact Option.some.inj (first.symm.trans second)

/-- A call ends as the same call with the levels that are left, and the counter is as before. -/
theorem exists_ends (fits : Fits limit levels c.pending s) :
    ∃ deepest, c.Ends limit s (s.after deepest ((c.withLevels levels).run s.reader)) ∧ s.deepest ≤ deepest ∧
      ∀ n ∈ limit, deepest ≤ max s.deepest n := by
  obtain ⟨deepest, run, ge, bounded⟩ := c.follows_run (Nat.lt_succ_self levels) s fits
  exact ⟨deepest, ⟨levels + 1, fun fuel le => c.agrees_run le s _ run⟩, ge, bounded⟩

theorem Ends.counter {result : Except ParseError Expr} (h : c.Ends limit s (result, t)) :
    t.depth = s.depth ∧ s.deepest ≤ t.deepest ∧ ∀ n ∈ limit, t.deepest ≤ max s.deepest n := by
  obtain ⟨levels, fits⟩ := exists_fits limit c.pending s
  obtain ⟨deepest, ends, ge, bounded⟩ := exists_ends fits
  have same : t = (s.after deepest ((c.withLevels levels).run s.reader)).2 :=
    congrArg Prod.snd (h.unique ends)
  rw [same, CountState.after_snd_depth, CountState.after_snd_deepest]
  exact ⟨rfl, ge, bounded⟩

theorem Ends.run_eq_ok {e : Expr} (h : c.Ends limit s (.ok e, t)) (fits : Fits limit levels c.pending s) :
    (c.withLevels levels).run s.reader = .ok e t.reader := by
  obtain ⟨deepest, ends, -⟩ := exists_ends fits
  exact CountState.eq_ok_of_after (ends.unique h)

theorem exists_ends_of_ok {e : Expr} {r : ParseState} (fits : Fits limit levels c.pending s)
    (h : (c.withLevels levels).run s.reader = .ok e r) :
    ∃ deepest, c.Ends limit s (.ok e, ⟨r, s.depth, deepest⟩) := by
  obtain ⟨deepest, ends, -⟩ := exists_ends fits
  rw [h] at ends
  exact ⟨deepest, ends⟩

end Call

/-- The first call of the counting reader makes the second one: the rules are those of the reader, and
before the call for a form the counter goes up. -/
inductive Makes (limit : Option Nat) : Call → CountState → Call → CountState → Prop
  | operator {scope : Scope} {place : Nat} {s : CountState} {text : String} {op : Operator}
      (ahead : s.reader.ahead.held.token = .word text) (keyword : Keyword.ofText? text = some (.operator op))
      (shallow : limit.any (· ≤ s.depth) = false) :
      Makes limit (.expression scope place) s (.application op scope place) s.raise
  | letIn {scope : Scope} {place : Nat} {s : CountState} {text : String}
      (ahead : s.reader.ahead.held.token = .word text) (keyword : Keyword.ofText? text = some .letIn)
      (shallow : limit.any (· ≤ s.depth) = false) :
      Makes limit (.expression scope place) s (.letBinding scope place) s.raise
  | nested {scope : Scope} {place : Nat} {s : CountState} {text : String}
      (ahead : s.reader.ahead.held.token = .word text) (reserved : (Keyword.ofText? text).isSome) :
      Makes limit (.operand scope place) s (.expression scope place) s
  | lhs {op : Operator} {scope : Scope} {place : Nat} {s : CountState} {s₁ s₂ : ParseState}
      {word opening : Lexeme} (h₁ : ParseM.expect .word s.reader = .ok word s₁)
      (h₂ : ParseM.expect .openParen s₁ = .ok opening s₂) :
      Makes limit (.application op scope place) s (.operand scope (place + 1)) { s with reader := s₂ }
  | rhs {op : Operator} {scope : Scope} {place : Nat} {s t : CountState} {s₁ s₂ s₄ : ParseState}
      {word opening comma : Lexeme} {lhs : Expr} (h₁ : ParseM.expect .word s.reader = .ok word s₁)
      (h₂ : ParseM.expect .openParen s₁ = .ok opening s₂)
      (h₃ : Call.Ends limit (.operand scope (place + 1)) { s with reader := s₂ } (.ok lhs, t))
      (h₄ : ParseM.expect .comma t.reader = .ok comma s₄) :
      Makes limit (.application op scope place) s
        (.operand scope (place + 1 + lhs.nodeCount)) { t with reader := s₄ }
  | value {scope : Scope} {place : Nat} {s : CountState} {s₁ s₂ s₃ s₄ : ParseState}
      {word opening comma : Lexeme} {name : String} (h₁ : ParseM.expect .word s.reader = .ok word s₁)
      (h₂ : ParseM.expect .openParen s₁ = .ok opening s₂) (h₃ : ParseM.newName scope s₂ = .ok name s₃)
      (h₄ : ParseM.expect .comma s₃ = .ok comma s₄) :
      Makes limit (.letBinding scope place) s (.operand scope (place + 1)) { s with reader := s₄ }
  | body {scope : Scope} {place : Nat} {s t : CountState} {s₁ s₂ s₃ s₄ s₆ s₇ : ParseState}
      {word opening comma comma' : Lexeme} {name : String} {bound : Expr} {u : Unit}
      (h₁ : ParseM.expect .word s.reader = .ok word s₁) (h₂ : ParseM.expect .openParen s₁ = .ok opening s₂)
      (h₃ : ParseM.newName scope s₂ = .ok name s₃) (h₄ : ParseM.expect .comma s₃ = .ok comma s₄)
      (h₅ : Call.Ends limit (.operand scope (place + 1)) { s with reader := s₄ } (.ok bound, t))
      (h₆ : ParseM.expect .comma t.reader = .ok comma' s₆)
      (h₇ : ParseM.recordBound name bound s₆ = .ok u s₇) :
      Makes limit (.letBinding scope place) s
        (.expression (scope.bind name ⟨place + 1, bound⟩) (place + 1 + bound.nodeCount))
        { t with reader := s₇ }

/-- The call is made while the text is read, counting from nothing. -/
inductive Reached (text : String) : Call → CountState → Prop
  | start {a : Lookahead} (first : Lookahead.ofCursor (.ofString text) = .ok a)
      (word : a.held.token.kind = .word) :
      Reached text (.expression .empty 0) ⟨⟨a, #[]⟩, 0, 0⟩
  | call {c d : Call} {s t : CountState} (caller : Reached text c s) (made : Makes (some maxDepth) c s d t) :
      Reached text d t

/-- The second call is made in the first one, at once or by the calls that this makes. -/
def Nests (limit : Option Nat) : Call × CountState → Call × CountState → Prop :=
  Relation.TransGen fun a b => Makes limit a.1 a.2 b.1 b.2

theorem Makes.nests (made : Makes limit c s d t) : Nests limit (c, s) (d, t) := .single made

theorem Nests.call {e : Call} {u : CountState} (h : Nests limit (c, s) (d, t)) (made : Makes limit d t e u) :
    Nests limit (c, s) (e, u) :=
  Relation.TransGen.tail h made

/-! ### The calls of both readers -/

/-- Behind an operand the same levels are left. -/
theorem Fits.operand {scope : Scope} {place : Nat} {e : Expr} (fits : Fits limit levels 0 s)
    (h : Call.Ends limit (.operand scope place) s (.ok e, t)) : Fits limit levels 0 t :=
  fits.tracked (ParseM.tracks_operand (ParseM.tracks_expression levels) scope place)
    (h.run_eq_ok fits) h.counter.1

/-- Behind the operand of a `let` and the comma after it the same levels are left. -/
theorem Fits.bound {name : String} {e : Expr} {s₆ s₇ : ParseState} {comma : Lexeme} {u : Unit}
    (fits : Fits limit levels 0 s) (h₆ : ParseM.expect .comma s.reader = .ok comma s₆)
    (h₇ : ParseM.recordBound name e s₆ = .ok u s₇) : Fits limit levels 0 { s with reader := s₇ } :=
  (fits.reads (ParseM.tracks_expect (by decide)) h₆).reads (ParseM.tracks_recordBound name e) h₇

/-- What the counting reader calls, the reader calls with the levels that are left. -/
theorem Makes.makes (made : Makes limit c s d t) (fits : Fits limit levels c.pending s) :
    ∃ levels', Fits limit levels' d.pending t ∧
      ParseM.Makes (c.withLevels levels) s.reader (d.withLevels levels') t.reader := by
  cases made with
  | operator ahead keyword shallow =>
    obtain ⟨levels, rfl⟩ := fits.exists_succ ahead shallow
    exact ⟨levels, fits.raise.2, .operator ahead keyword⟩
  | letIn ahead keyword shallow =>
    obtain ⟨levels, rfl⟩ := fits.exists_succ ahead shallow
    exact ⟨levels, fits.raise.2, .letIn ahead keyword⟩
  | nested ahead reserved => exact ⟨levels, fits, .nested ahead reserved⟩
  | lhs h₁ h₂ => exact ⟨levels, fits.opened h₁ h₂, .lhs h₁ h₂⟩
  | rhs h₁ h₂ h₃ h₄ =>
    have opened := fits.opened h₁ h₂
    have separated := (opened.operand h₃).reads (ParseM.tracks_expect (by decide)) h₄
    exact ⟨levels, separated, .rhs h₁ h₂ (h₃.run_eq_ok opened) h₄⟩
  | value h₁ h₂ h₃ h₄ => exact ⟨levels, fits.head h₁ h₂ h₃ h₄, .value h₁ h₂ h₃ h₄⟩
  | body h₁ h₂ h₃ h₄ h₅ h₆ h₇ =>
    have head := fits.head h₁ h₂ h₃ h₄
    exact ⟨levels, (head.operand h₅).bound h₆ h₇, .body h₁ h₂ h₃ h₄ (h₅.run_eq_ok head) h₆ h₇⟩

/-- What the reader calls, the counting reader calls. -/
theorem exists_makes {e : ParseM.Call} {r : ParseState} (fits : Fits limit levels c.pending s)
    (made : ParseM.Makes (c.withLevels levels) s.reader e r) :
    ∃ d t levels', Makes limit c s d t ∧ Fits limit levels' d.pending t ∧ d.withLevels levels' = e ∧
      t.reader = r := by
  cases c with
  | expression scope place =>
    cases made with
    | operator ahead keyword =>
      obtain ⟨shallow, inside⟩ := fits.raise
      exact ⟨.application _ scope place, s.raise, _, .operator ahead keyword shallow, inside, rfl, rfl⟩
    | letIn ahead keyword =>
      obtain ⟨shallow, inside⟩ := fits.raise
      exact ⟨.letBinding scope place, s.raise, _, .letIn ahead keyword shallow, inside, rfl, rfl⟩
  | operand scope place =>
    cases made with
    | nested ahead reserved => exact ⟨.expression scope place, s, _, .nested ahead reserved, fits, rfl, rfl⟩
  | application op scope place =>
    cases made with
    | lhs h₁ h₂ => exact ⟨.operand scope (place + 1), _, _, .lhs h₁ h₂, fits.opened h₁ h₂, rfl, rfl⟩
    | @rhs _ _ _ _ _ _ _ _ _ _ _ _ lhs h₁ h₂ h₃ h₄ =>
      -- the counting reader ends in the first operand as well, with its counter back where it was
      have opened := fits.opened h₁ h₂
      obtain ⟨deepest, ends⟩ := Call.exists_ends_of_ok (c := .operand scope (place + 1)) opened h₃
      have separated := (opened.operand ends).reads (ParseM.tracks_expect (by decide)) h₄
      exact ⟨.operand scope (place + 1 + lhs.nodeCount), _, _, .rhs h₁ h₂ ends h₄, separated, rfl, rfl⟩
  | letBinding scope place =>
    cases made with
    | value h₁ h₂ h₃ h₄ =>
      exact ⟨.operand scope (place + 1), _, _, .value h₁ h₂ h₃ h₄, fits.head h₁ h₂ h₃ h₄, rfl, rfl⟩
    | @body _ _ _ _ _ _ _ _ _ _ _ _ _ _ _ name bound _ h₁ h₂ h₃ h₄ h₅ h₆ h₇ =>
      have head := fits.head h₁ h₂ h₃ h₄
      obtain ⟨deepest, ends⟩ := Call.exists_ends_of_ok (c := .operand scope (place + 1)) head h₅
      have inside := (head.operand ends).bound h₆ h₇
      exact ⟨.expression (scope.bind name ⟨place + 1, bound⟩) (place + 1 + bound.nodeCount), _, _,
        .body h₁ h₂ h₃ h₄ ends h₆ h₇, inside, rfl, rfl⟩

/-- The counter stays within the limit. -/
theorem Makes.within (made : Makes (some n) c s d t) (h : s.depth ≤ n ∧ s.deepest ≤ n) :
    t.depth ≤ n ∧ t.deepest ≤ n := by
  have raised (shallow : (some n).any (· ≤ s.depth) = false) : s.raise.depth ≤ n ∧ s.raise.deepest ≤ n := by
    have lt : s.depth < n := by simpa using shallow
    show s.depth + 1 ≤ n ∧ max s.deepest (s.depth + 1) ≤ n
    omega
  have ended {c : Call} {r : ParseState} {result : Except ParseError Expr} {t : CountState}
      (ends : c.Ends (some n) ⟨r, s.depth, s.deepest⟩ (result, t)) : t.depth ≤ n ∧ t.deepest ≤ n := by
    obtain ⟨same, -, bounded⟩ := ends.counter
    exact ⟨same ▸ h.1, Nat.le_trans (bounded n rfl) (Nat.max_le.mpr ⟨h.2, Nat.le_refl n⟩)⟩
  cases made with
  | operator ahead keyword shallow => exact raised shallow
  | letIn ahead keyword shallow => exact raised shallow
  | nested | lhs | value => exact h
  | rhs h₁ h₂ h₃ h₄ =>
    obtain ⟨depth, deepest⟩ := ended h₃
    exact ⟨depth, deepest⟩
  | body h₁ h₂ h₃ h₄ h₅ h₆ h₇ =>
    obtain ⟨depth, deepest⟩ := ended h₅
    exact ⟨depth, deepest⟩

section

variable {text : String}

/-- Wherever the counting reader makes a call, the reader makes it with the levels up to the limit. -/
theorem Reached.reached (h : Reached text c s) :
    ParseM.Reached text (c.withLevels (maxDepth - s.depth)) s.reader := by
  induction h with
  | start first word => exact .start first word
  | call caller made ih =>
    obtain ⟨levels, left, made⟩ := made.makes (fits_some rfl)
    rw [← left.limited _ rfl] at made
    exact ih.call made

theorem reached_iff {call : ParseM.Call} {r : ParseState} : ParseM.Reached text call r ↔
    ∃ c s, Reached text c s ∧ call = c.withLevels (maxDepth - s.depth) ∧ r = s.reader := by
  refine ⟨fun h => ?_, fun ⟨c, s, h, same, here⟩ => same ▸ here ▸ h.reached⟩
  induction h with
  | start first word => exact ⟨_, _, .start first word, rfl, rfl⟩
  | call caller made ih =>
    obtain ⟨c, s, reached, rfl, rfl⟩ := ih
    obtain ⟨d, t, levels, counted, left, rfl, rfl⟩ := exists_makes (fits_some rfl) made
    exact ⟨d, t, reached.call counted, by rw [left.limited _ rfl], rfl⟩

theorem Reached.within (h : Reached text c s) : s.depth ≤ maxDepth ∧ s.deepest ≤ maxDepth := by
  induction h with
  | start first word => exact ⟨Nat.zero_le _, Nat.zero_le _⟩
  | call caller made ih => exact made.within ih

/-- The counter tells how many forms are open. -/
theorem Reached.depth_eq (h : Reached text c s) : ∃ front, ParseM.Behind text front s.reader ∧
    s.depth = (openForms (front.map Lexeme.token)).length + c.pending := by
  obtain ⟨forms, ⟨front, behind, rfl⟩, -, -, -, depth, -⟩ := h.reached.sits
  refine ⟨front, behind, ?_⟩
  obtain ⟨within, -⟩ := h.within
  rw [Call.levels_withLevels, Call.pending_withLevels] at depth
  omega

end

/-! ### Tokens between two calls -/

theorem Makes.took (made : Makes limit c s d t) :
    ∃ front, ParseM.Took s.reader front t.reader ∧ c.pending ≤ front.length := by
  obtain ⟨levels, fits⟩ := exists_fits limit c.pending s
  obtain ⟨levels', -, made⟩ := made.makes fits
  obtain ⟨front, taken, enough⟩ := made.took
  exact ⟨front, taken, c.pending_withLevels levels ▸ enough⟩

/-- Any number of calls, each made in the one before. -/
theorem exists_took {a b : Call × CountState}
    (h : Relation.ReflTransGen (fun a b => Makes limit a.1 a.2 b.1 b.2) a b) :
    ∃ front, ParseM.Took a.2.reader front b.2.reader := by
  induction h with
  | refl => exact ⟨[], .nil _⟩
  | tail _ made ih =>
    obtain ⟨front, taken⟩ := ih
    obtain ⟨more, taken', -⟩ := made.took
    exact ⟨front ++ more, taken.trans taken'⟩

/-- Between two expressions that stand inside one another at least one token is taken: what is called
first is called for the word ahead, and goes on behind it. -/
theorem Nests.took {scope scope' : Scope} {place place' : Nat}
    (h : Nests limit (.expression scope place, s) (.expression scope' place', t)) :
    ∃ front, front ≠ [] ∧ ParseM.Took s.reader front t.reader := by
  obtain ⟨⟨d, u⟩, first, others⟩ := Relation.TransGen.head'_iff.mp h
  obtain ⟨word, here⟩ : d.pending = 1 ∧ u.reader = s.reader := by
    cases first with
    | operator | letIn => exact ⟨rfl, rfl⟩
  -- the first call is still in front of the word; the second one is made by steps that take it
  obtain same | ⟨⟨e, v⟩, second, others⟩ := others.cases_head
  · obtain ⟨rfl, -⟩ := Prod.mk.inj same
    cases word
  · obtain ⟨front, taken, enough⟩ := second.took
    obtain ⟨more, taken'⟩ := exists_took others
    refine ⟨front ++ more, fun empty => ?_, here ▸ taken.trans taken'⟩
    have first : 1 ≤ front.length := word ▸ enough
    rw [(List.append_eq_nil_iff.mp empty).1] at first
    cases first

end CountM

/-! ### Programs -/

/-- The counting reader ends, with or without a limit, whatever it is called for and wherever it stands,
and its counter is as before and never above the limit in between.  Between two expressions that stand
inside one another it takes at least one token.  It makes of a text what the reader makes of it, by the
same calls, and wherever something is called the counter tells how many operators and `let`s are open.
A call that fails is the end of the whole reading. -/
theorem counter_follows_nesting :
    (∀ limit (c : CountM.Call) s, ∃ result t, c.Ends limit s (result, t) ∧ t.depth = s.depth ∧
      s.deepest ≤ t.deepest ∧ ∀ n ∈ limit, t.deepest ≤ max s.deepest n) ∧
    (∀ limit scope place s scope' place' t,
      CountM.Nests limit (.expression scope place, s) (.expression scope' place', t) →
      ∃ front, front ≠ [] ∧ s.reader.ahead.Reads front t.reader.ahead ∧
        ∀ lexeme ∈ front, lexeme.token ≠ .endOfInput) ∧
    ∀ text,
      (∃ enough, ∀ fuel, enough ≤ fuel →
        CountM.parseRecorded fuel text = some (Expr.parseRecorded text)) ∧
      (∀ c s, CountM.Reached text c s → s.depth ≤ maxDepth ∧ s.deepest ≤ maxDepth ∧
        (∃ front, ParseM.Behind text front s.reader ∧
          s.depth = (openForms (front.map Lexeme.token)).length + c.pending) ∧
        ∃ deepest ≤ maxDepth,
          c.Ends (some maxDepth) s (s.after deepest ((c.withLevels (maxDepth - s.depth)).run s.reader))) ∧
      (∀ call r, ParseM.Reached text call r ↔
        ∃ c s, CountM.Reached text c s ∧ call = c.withLevels (maxDepth - s.depth) ∧ r = s.reader) ∧
      ∀ call r, ParseM.Reached text call r → ∀ err r', call.run r = .error err r' →
        Expr.parse text = .error err := by
  refine ⟨fun limit c s => ?_, fun limit scope place s scope' place' t h => ?_,
    fun text => ⟨?_, fun c s h => ?_, fun call r => CountM.reached_iff,
      fun call r h err r' => h.parse_eq_error⟩⟩
  · obtain ⟨levels, fits⟩ := CountM.exists_fits limit c.pending s
    obtain ⟨deepest, ends, -⟩ := CountM.Call.exists_ends fits
    exact ⟨_, _, ends, ends.counter⟩
  · obtain ⟨front, nonempty, taken⟩ := h.took
    exact ⟨front, nonempty, taken.reads, taken.inner⟩
  · exact ⟨maxDepth + 1, fun fuel le => CountM.parseRecorded_eq le text⟩
  · obtain ⟨depth, before⟩ := h.within
    have fits : CountM.Fits (some maxDepth) (maxDepth - s.depth) c.pending s := CountM.fits_some rfl
    obtain ⟨deepest, ends, -, bounded⟩ := CountM.Call.exists_ends fits
    have below := Nat.le_trans (bounded maxDepth rfl) (Nat.max_le.mpr ⟨before, Nat.le_refl maxDepth⟩)
    exact ⟨depth, before, h.depth_eq, deepest, below, ends⟩

/-- In front of the second operand the reader has been deeper, and the counter is down again. -/
theorem counter_follows_nesting_siblings :
    ∃ s t front more, CountM.Reached "add(sub(1,2),mult(3,4))" (.expression .empty 0) s ∧
      CountM.Reached "add(sub(1,2),mult(3,4))" (.expression .empty 4) t ∧ t.depth = 1 ∧ t.deepest = 2 ∧
      ParseM.Behind "add(sub(1,2),mult(3,4))" front t.reader ∧
      (openForms (front.map Lexeme.token)).length = 1 ∧
      more ≠ [] ∧ s.reader.ahead.Reads more t.reader.ahead := by
  have first : Lookahead.ofCursor (.ofString "add(sub(1,2),mult(3,4))") =
      .ok ⟨⟨.word "add", ⟨0, 3⟩⟩, ⟨"(sub(1,2),mult(3,4))".toList, 3⟩⟩ := by decide +kernel
  have start := CountM.Reached.start first rfl
  have adding : CountM.Makes (some maxDepth) (.expression .empty 0)
      ⟨⟨⟨⟨.word "add", ⟨0, 3⟩⟩, ⟨"(sub(1,2),mult(3,4))".toList, 3⟩⟩, #[]⟩, 0, 0⟩
      (.application .add .empty 0) _ :=
    .operator rfl (by decide) rfl
  have lhs (events : Array ParseEvent) : ∃ events', CountM.Call.Ends (some maxDepth) (.operand .empty 1)
      ⟨⟨⟨⟨.word "sub", ⟨4, 7⟩⟩, ⟨"(1,2),mult(3,4))".toList, 7⟩⟩, events⟩, 1, 1⟩
      (.ok (.binary .sub (.integer 1) (.integer 2)),
        ⟨⟨⟨⟨.comma, ⟨12, 13⟩⟩, ⟨"mult(3,4))".toList, 13⟩⟩, events'⟩, 1, 2⟩) :=
    ⟨_, 1, fun _ le => CountM.Call.agrees_run _ le _ _ rfl⟩
  obtain ⟨events, ends⟩ := lhs _
  have reached := ((start.call adding).call (.rhs rfl rfl ends rfl)).call (.nested rfl rfl)
  have inside := (adding.nests.call (.rhs rfl rfl ends rfl)).call (.nested rfl rfl)
  obtain ⟨more, nonempty, taken, -⟩ := counter_follows_nesting.2.1 _ _ _ _ _ _ _ inside
  obtain ⟨-, -, ⟨front, behind, forms⟩, -⟩ := (counter_follows_nesting.2.2 _).2.1 _ _ reached
  exact ⟨_, _, front, more, start, reached, rfl, rfl, behind, forms.symm, nonempty, taken⟩

end LetArith
