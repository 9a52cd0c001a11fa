import LetArith.Proofs.Recording

/-!
# LetArith.Proofs.Counting — a reader that counts how deep it is

The reader is told how many levels are left, and its recursion is on them.  One can also count: a
counter goes up before what a keyword starts is read, and down when that has ended, well or not.  Such a
reader asks the counter whether it may go deeper, and its recursion is on nothing of the text: it is
given up where the fuel runs out.

It is no other reader.  With a limit it does what the reader does with as many levels as the counter
leaves, and without a limit what the reader does with as many levels as there are tokens ahead.  So some
fuel is always enough, and the counter is as before.

* `Lookahead.Reads.left_add_length_le`: each token that is taken is one less ahead.
* `CountM.Follows.bind`: a sequence follows another one step by step.
* `CountM.follows_expression`: the counting reader follows the reader.
* `CountM.agrees_expression`: more fuel changes no result.
* `CountM.parseRecorded_eq`: the two readers make the same of every text.
-/

namespace LetArith

/-! ### Tokens ahead -/

/-- No more tokens than these can be taken before the end. -/
def Lookahead.left (a : Lookahead) : Nat := if a.held.token = .endOfInput then 0 else a.cursor.rest.length + 1

theorem Lookahead.left_lt_of_advance {a b : Lookahead} {lexeme : Lexeme} (h : a.advance = (.ok lexeme, b))
    (inner : lexeme.token ≠ .endOfInput) : b.left < a.left := by
  obtain ⟨rfl, next⟩ := advance_eq_ok_iff.mp h
  rw [left, left, if_neg inner]
  split
  · exact Nat.succ_pos _
  · next more =>
    have shorter := Cursor.length_scanLexeme_lt (ofCursor_eq_ok_iff.mp next) more
    have skipped := Cursor.length_skipWhile_le isBlank a.cursor
    omega

theorem Lookahead.Reads.left_add_length_le {a b : Lookahead} {lexemes : List Lexeme} (h : a.Reads lexemes b)
    (inner : ∀ lexeme ∈ lexemes, lexeme.token ≠ .endOfInput) : b.left + lexemes.length ≤ a.left := by
  induction h with
  | nil a => exact Nat.le_refl _
  | cons first others ih =>
    obtain ⟨here, behind⟩ := List.forall_mem_cons.mp inner
    have step := Lookahead.left_lt_of_advance first here
    have steps := ih behind
    rw [List.length_cons]
    omega

namespace ParseM

variable {s t : ParseState}

theorem took_of_expect {kind : TokenKind} {lexeme : Lexeme} (inner : kind ≠ .endOfInput)
    (h : expect kind s = .ok lexeme t) : Took s [lexeme] t := by
  obtain ⟨found, u, first, h⟩ := bind_eq_ok_iff.mp h
  split at h
  · next same =>
    obtain ⟨rfl, rfl⟩ := pure_eq_ok_iff.mp h
    refine took_of_advance first fun ending => inner ?_
    rw [← same, ending, Token.kind]
  · cases h

/-- What the reader does when it has looked at a word. -/
def form (inner : Scope → Nat → ParseM Expr) (word : String) (span : Span) (scope : Scope)
    (place : Nat) : ParseM Expr :=
  match Keyword.ofText? word with
  | some (.operator op) => application inner op scope place
  | some .letIn => letBinding inner scope place
  | none => throw (.unknownOperation word span)

theorem expression_of_word {levels place : Nat} {scope : Scope} {text : String}
    (ahead : s.ahead.held.token = .word text) :
    expression (levels + 1) scope place s =
      form (expression levels) text s.ahead.held.span scope place s := by
  rw [expression, peekWord_bind ahead]
  rfl

end ParseM

/-! ### The counting reader -/

/-- The state of the reader, how deep it is, and how deep it has been. -/
structure CountState where
  reader : ParseState
  depth : Nat
  deepest : Nat

namespace CountState

/-- One level deeper. -/
def raise (s : CountState) : CountState :=
  { s with depth := s.depth + 1, deepest := max s.deepest (s.depth + 1) }

/-- One level less deep. -/
def lower (s : CountState) : CountState := { s with depth := s.depth - 1 }

/-- The result of the reader, with the counter as it was. -/
def after {α : Type} (s : CountState) (deepest : Nat) :
    EStateM.Result ParseError ParseState α → Except ParseError α × CountState
  | .ok x t => (.ok x, ⟨t, s.depth, deepest⟩)
  | .error e t => (.error e, ⟨t, s.depth, deepest⟩)

section

variable {α : Type} {s t : CountState} {deepest : Nat} {result : EStateM.Result ParseError ParseState α}

@[simp] theorem after_snd_depth : (s.after deepest result).2.depth = s.depth := by cases result <;> rfl

@[simp] theorem after_snd_deepest : (s.after deepest result).2.deepest = deepest := by cases result <;> rfl

theorem eq_ok_of_after {x : α} (h : s.after deepest result = (.ok x, t)) : result = .ok x t.reader := by
  cases result with
  | ok y r =>
    obtain ⟨same, rfl⟩ := Prod.mk.inj h
    rw [Except.ok.inj same]
  | error e r => exact nomatch (Prod.mk.inj h).1

end

end CountState

/-- A step of the counting reader.  It has no result if it is given up. -/
abbrev CountM := ExceptT ParseError (StateT CountState Option)

namespace CountM

/-- A step of the reader, which leaves the counter alone. -/
def reading {α : Type} (m : ParseM α) : CountM α := fun s => some (s.after s.deepest (m s.reader))

/-- How deep the reader is. -/
def depth : CountM Nat := fun s => some (.ok s.depth, s)

/-- A step one level deeper.  The counter comes down again behind it, also behind an error. -/
def deeper {α : Type} (m : CountM α) : CountM α := show StateT CountState Option (Except ParseError α) from do
  modify .raise
  let result ← m.run
  modify .lower
  return result

/-- Reads an operand that starts at `place`, with `inner` for the expressions below it. -/
def operand (inner : Scope → Nat → CountM Expr) (scope : Scope) (place : Nat) : CountM Expr := do
  let found ← reading ParseM.peek
  match found.token with
  | .integer value =>
    let _ ← reading ParseM.advance
    return .integer value
  | .word text =>
    if (Keyword.ofText? text).isSome then inner scope place
    else
      match scope.lookup? text with
      | some shared =>
        let _ ← reading ParseM.advance
        return .var text shared.place shared.expr
      | none => throw (.unboundVariable text found.span)
  | _ => throw (.invalidOperand found)

/-- Reads the application of an operator that starts at `place`. -/
def application (inner : Scope → Nat → CountM Expr) (op : Operator) (scope : Scope) (place : Nat) :
    CountM Expr := do
  let _ ← reading (ParseM.expect .word)
  let _ ← reading (ParseM.expect .openParen)
  let lhs ← operand inner scope (place + 1)
  let _ ← reading (ParseM.expect .comma)
  let rhs ← operand inner scope (place + 1 + lhs.nodeCount)
  let _ ← reading (ParseM.expect .closeParen)
  return .binary op lhs rhs

/-- Reads a `let` that starts at `place`. -/
def letBinding (inner : Scope → Nat → CountM Expr) (scope : Scope) (place : Nat) : CountM Expr := do
  let _ ← reading (ParseM.expect .word)
  let _ ← reading (ParseM.expect .openParen)
  let name ← reading (ParseM.newName scope)
  let _ ← reading (ParseM.expect .comma)
  let bound ← operand inner scope (place + 1)
  let _ ← reading (ParseM.expect .comma)
  reading (ParseM.recordBound name bound)
  let body ← inner (scope.bind name ⟨place + 1, bound⟩) (place + 1 + bound.nodeCount)
  let _ ← reading (ParseM.expect .closeParen)
  return .letIn name bound body

/-- Reads what starts with the word ahead. -/
def form (inner : Scope → Nat → CountM Expr) (word : String) (span : Span) (scope : Scope)
    (place : Nat) : CountM Expr :=
  match Keyword.ofText? word with
  | some (.operator op) => application inner op scope place
  | some .letIn => letBinding inner scope place
  | none => throw (.unknownOperation word span)

/-- Reads an expression that starts at `place`.  It goes down as long as the counter is below the limit,
if there is one.  Nothing else bounds the recursion, and it is given up when there is no fuel left. -/
def expression (limit : Option Nat) : (fuel : Nat) → Scope → (place : Nat) → CountM Expr
  | 0, _, _ => fun _ => none
  | fuel + 1, scope, place => do
    let (word, span) ← reading ParseM.peekWord
    let depth ← depth
    if limit.any (· ≤ depth) then throw (.tooDeep span)
    else deeper (form (expression limit fuel) word span scope place)

/-- Reads a program up to the end of the text. -/
def program (limit : Option Nat) (fuel : Nat) : CountM Expr := do
  let first ← reading ParseM.peek
  if first.token.kind = .word then
    let e ← expression limit fuel .empty 0
    let _ ← reading (ParseM.expect .endOfInput)
    return e
  else throw (.missingExpression first)

/-- Reads a text as a program, counting from nothing. -/
def parseRecorded (fuel : Nat) (text : String) : Option (Except ParseError Expr × Array ParseEvent) :=
  match Lookahead.ofCursor (.ofString text) with
  | .error e => some (.error (.lexical e), #[])
  | .ok ahead =>
    (program (some maxDepth) fuel ⟨⟨ahead, #[]⟩, 0, 0⟩).map fun (result, s) => (result, s.reader.events)

/-! ### The counting reader beside the reader -/

section

variable {α β : Type} {limit : Option Nat} {levels slack : Nat} {s t : CountState}

theorem bind_of_ok {m : CountM α} {x : α} (h : m s = some (.ok x, t)) (f : α → CountM β) :
    (m >>= f) s = f x t := by
  simp only [Bind.bind, ExceptT.bind, ExceptT.mk, StateT.bind, h, Option.bind, ExceptT.bindCont]

theorem bind_of_error {m : CountM α} {e : ParseError} (h : m s = some (.error e, t)) (f : α → CountM β) :
    (m >>= f) s = some (.error e, t) := by
  simp only [Bind.bind, ExceptT.bind, ExceptT.mk, StateT.bind, h, Option.bind, ExceptT.bindCont]
  rfl

theorem bind_of_none {m : CountM α} (h : m s = none) (f : α → CountM β) : (m >>= f) s = none := by
  simp only [Bind.bind, ExceptT.bind, ExceptT.mk, StateT.bind, h, Option.bind]

/-- From this state the first step comes to what the second one comes to.  The counter is as before, and
it was no higher than the limit in between, unless it had been before. -/
def FollowsAt (limit : Option Nat) (m : CountM α) (m' : ParseM α) (s : CountState) : Prop :=
  ∃ deepest, m s = some (s.after deepest (m' s.reader)) ∧ s.deepest ≤ deepest ∧
    ∀ n ∈ limit, deepest ≤ max s.deepest n

/-- These are the levels that are left: those up to the limit, or without a limit at least one for each
token ahead, `slack` of them apart. -/
structure Fits (limit : Option Nat) (levels slack : Nat) (s : CountState) : Prop where
  limited : ∀ n ∈ limit, n - s.depth = levels
  unlimited : limit = none → s.reader.ahead.left ≤ levels + slack

theorem fits_some {n : Nat} (h : n - s.depth = levels) : Fits (some n) levels slack s :=
  ⟨fun _ hn => Option.some.inj hn ▸ h, fun none => (Option.some_ne_none n none).elim⟩

/-- From all states with these levels left the first step comes to what the second one comes to. -/
def Follows (limit : Option Nat) (levels slack : Nat) (m : CountM α) (m' : ParseM α) : Prop :=
  ∀ s, Fits limit levels slack s → FollowsAt limit m m' s

theorem followsAt_reading (m : ParseM α) : FollowsAt limit (reading m) m s :=
  ⟨s.deepest, rfl, Nat.le_refl _, fun _ _ => Nat.le_max_left _ _⟩

theorem FollowsAt.bind {m : CountM α} {m' : ParseM α} {f : α → CountM β} {f' : α → ParseM β}
    (hm : FollowsAt limit m m' s)
    (hf : ∀ x t deepest, m' s.reader = .ok x t → FollowsAt limit (f x) (f' x) ⟨t, s.depth, deepest⟩) :
    FollowsAt limit (m >>= f) (m' >>= f') s := by
  obtain ⟨deepest, run, ge, bounded⟩ := hm
  cases h : m' s.reader with
  | error e t =>
    rw [h, CountState.after] at run
    refine ⟨deepest, ?_, ge, bounded⟩
    rw [bind_of_error run, ParseM.bind_of_error h, CountState.after]
  | ok x t =>
    rw [h, CountState.after] at run
    obtain ⟨deepest', run', ge', bounded'⟩ := hf x t deepest h
    refine ⟨deepest', ?_, Nat.le_trans ge ge', fun n hn => ?_⟩
    · rw [bind_of_ok run, ParseM.bind_of_ok h]
      exact run'
    · have first := bounded n hn
      have second : deepest' ≤ max deepest n := bounded' n hn
      omega

theorem follows_reading (m : ParseM α) : Follows limit levels slack (reading m) m :=
  fun _ _ => followsAt_reading m

theorem follows_pure (x : α) : Follows limit levels slack (pure x) (pure x) :=
  fun _ _ => followsAt_reading (pure x)

theorem followsAt_throw (e : ParseError) : FollowsAt limit (throw e : CountM α) (throw e) s :=
  followsAt_reading (throw e)

theorem Fits.behind {front : List Lexeme} (fits : Fits limit levels slack s)
    (taken : ParseM.Took s.reader front t.reader) (same : t.depth = s.depth) :
    Fits limit levels (slack - front.length) t := by
  refine ⟨same ▸ fits.limited, fun h => ?_⟩
  have before := fits.unlimited h
  have less := taken.reads.left_add_length_le taken.inner
  omega

/-- Below the limit the counter can go up, and a level less is left, also where the word ahead was not
taken yet. -/
theorem Fits.raise (fits : Fits limit (levels + 1) 0 s) :
    limit.any (· ≤ s.depth) = false ∧ Fits limit levels 1 s.raise := by
  refine ⟨?_, fun n hn => ?_, fits.unlimited⟩
  · cases limit with
    | none => rfl
    | some n =>
      have left := fits.limited n rfl
      simp only [Option.any_some, decide_eq_false_iff_not]
      omega
  · have left := fits.limited n hn
    show n - (s.depth + 1) = levels
    omega

/-- Where no slack is needed, a step that only takes tokens leaves the same levels. -/
theorem Fits.tracked {m : ParseM α} {x : α} (fits : Fits limit levels 0 s) (tracks : ∀ s, ParseM.Tracks m s)
    (h : m s.reader = .ok x t.reader) (same : t.depth = s.depth) : Fits limit levels 0 t := by
  obtain ⟨front, taken⟩ := (tracks s.reader).ok h
  have left := fits.behind taken same
  rwa [Nat.zero_sub] at left

/-- A step and what comes behind it. -/
theorem Follows.bind {m : CountM α} {m' : ParseM α} {f : α → CountM β} {f' : α → ParseM β}
    (hm : Follows limit levels 0 m m') (tracks : ∀ s, ParseM.Tracks m' s)
    (hf : ∀ x, Follows limit levels 0 (f x) (f' x)) : Follows limit levels 0 (m >>= f) (m' >>= f') :=
  fun s fits => (hm s fits).bind fun x _ _ h => hf x _ (fits.tracked tracks h rfl)

/-- The first word of a form and what comes behind it: one token less is ahead. -/
theorem Follows.behindWord {f : Lexeme → CountM β} {f' : Lexeme → ParseM β}
    (hf : ∀ x, Follows limit levels 0 (f x) (f' x)) :
    Follows limit levels 1 (reading (ParseM.expect .word) >>= f) (ParseM.expect .word >>= f') := by
  refine fun s fits => (followsAt_reading _).bind fun x t deepest h => hf x _ ?_
  exact fits.behind (ParseM.took_of_expect (by decide) h) rfl

theorem peek_bind (f : Lexeme → CountM α) : (reading ParseM.peek >>= f) s = f s.reader.ahead.held s :=
  bind_of_ok rfl f

section

variable {inner : Scope → Nat → CountM Expr} {inner' : Scope → Nat → ParseM Expr}

theorem follows_operand (hi : ∀ scope place, Follows limit levels 0 (inner scope place) (inner' scope place))
    (scope : Scope) (place : Nat) :
    Follows limit levels 0 (operand inner scope place) (ParseM.operand inner' scope place) := by
  intro s fits
  rw [operand, ParseM.operand, FollowsAt, peek_bind, ParseM.peek_bind]
  cases s.reader.ahead.held.token with
  | integer value => exact (followsAt_reading _).bind fun _ _ _ _ => followsAt_reading (pure _)
  | word text =>
    dsimp only
    split
    · exact hi scope place s fits
    · cases scope.lookup? text with
      | some shared => exact (followsAt_reading _).bind fun _ _ _ _ => followsAt_reading (pure _)
      | none => exact followsAt_throw _
  | openParen | closeParen | comma | endOfInput => exact followsAt_throw _

variable (hi : ∀ scope place, Follows limit levels 0 (inner scope place) (inner' scope place))
  (tracks : ∀ scope place s, ParseM.Tracks (inner' scope place) s)
include hi tracks

theorem follows_application (op : Operator) (scope : Scope) (place : Nat) :
    Follows limit levels 1 (application inner op scope place) (ParseM.application inner' op scope place) := by
  rw [application, ParseM.application]
  refine Follows.behindWord fun _ => ?_
  refine (follows_reading _).bind (ParseM.tracks_expect (by decide)) fun _ => ?_
  refine (follows_operand hi _ _).bind (ParseM.tracks_operand tracks _ _) fun lhs => ?_
  refine (follows_reading _).bind (ParseM.tracks_expect (by decide)) fun _ => ?_
  refine (follows_operand hi _ _).bind (ParseM.tracks_operand tracks _ _) fun rhs => ?_
  exact (follows_reading _).bind (ParseM.tracks_expect (by decide)) fun _ => follows_pure _

theorem follows_letBinding (scope : Scope) (place : Nat) :
    Follows limit levels 1 (letBinding inner scope place) (ParseM.letBinding inner' scope place) := by
  rw [letBinding, ParseM.letBinding]
  refine Follows.behindWord fun _ => ?_
  refine (follows_reading _).bind (ParseM.tracks_expect (by decide)) fun _ => ?_
  refine (follows_reading _).bind (ParseM.tracks_newName scope) fun name => ?_
  refine (follows_reading _).bind (ParseM.tracks_expect (by decide)) fun _ => ?_
  refine (follows_operand hi _ _).bind (ParseM.tracks_operand tracks _ _) fun bound => ?_
  refine (follows_reading _).bind (ParseM.tracks_expect (by decide)) fun _ => ?_
  refine (follows_reading _).bind (ParseM.tracks_recordBound name bound) fun _ => ?_
  refine (hi _ _).bind (tracks _ _) fun body => ?_
  exact (follows_reading _).bind (ParseM.tracks_expect (by decide)) fun _ => follows_pure _

theorem follows_form (word : String) (span : Span) (scope : Scope) (place : Nat) :
    Follows limit levels 1 (form inner word span scope place) (ParseM.form inner' word span scope place) := by
  rw [form, ParseM.form]
  split
  · exact follows_application hi tracks _ scope place
  · exact follows_letBinding hi tracks scope place
  · exact fun _ _ => followsAt_throw _

end

theorem deeper_eq (m : CountM α) : deeper m s = (m s.raise).map fun (result, t) => (result, t.lower) := by
  show (m s.raise >>= fun found => some (found.1, found.2.lower)) = _
  cases m s.raise <;> rfl

/-- The counter goes up before a step and comes down behind it. -/
theorem FollowsAt.deeper {m : CountM α} {m' : ParseM α} (h : FollowsAt limit m m' s.raise)
    (shallow : limit.any (· ≤ s.depth) = false) : FollowsAt limit (deeper m) m' s := by
  obtain ⟨deepest, run, ge, bounded⟩ := h
  have raised : s.raise.deepest = max s.deepest (s.depth + 1) := rfl
  refine ⟨deepest, ?_, by omega, fun n hn => ?_⟩
  · rw [deeper_eq, run, Option.map_some, show s.raise.reader = s.reader from rfl]
    cases m' s.reader <;> rfl
  · have below := bounded n hn
    obtain rfl := Option.mem_def.mp hn
    have lt : s.depth < n := by simpa using shallow
    omega

theorem expression_of_word {fuel place : Nat} {scope : Scope} {text : String}
    (ahead : s.reader.ahead.held.token = .word text) : expression limit (fuel + 1) scope place s =
      if limit.any (· ≤ s.depth) then some (.error (.tooDeep s.reader.ahead.held.span), s)
      else deeper (form (expression limit fuel) text s.reader.ahead.held.span scope place) s := by
  have word : reading ParseM.peekWord s = some (.ok (text, s.reader.ahead.held.span), s) := by
    have held : (ParseM.peekWord >>= pure) s.reader = _ := ParseM.peekWord_bind ahead
    rw [bind_pure] at held
    rw [reading, held]
    rfl
  have counted : depth s = some (.ok s.depth, s) := rfl
  rw [expression, bind_of_ok word]
  dsimp only
  rw [bind_of_ok counted]
  split
  · rfl
  · rfl

/-- Without a word ahead there is no expression. -/
theorem followsAt_of_ne_word (other : ∀ text, s.reader.ahead.held.token ≠ .word text) (fuel : Nat)
    (scope : Scope) (place : Nat) :
    FollowsAt limit (expression limit (fuel + 1) scope place) (ParseM.expression levels scope place) s := by
  have none {word : String × Span} {t : ParseState} (h : ParseM.peekWord s.reader = .ok word t) : False :=
    other word.1 (by rw [(ParseM.peekWord_of_ok h).1])
  rw [expression]
  cases levels with
  | zero => exact (followsAt_reading _).bind fun _ _ _ h => (none h).elim
  | succ levels => exact (followsAt_reading _).bind fun _ _ _ h => (none h).elim

/-- By induction on the levels that are left, which the fuel need not exceed by more than one. -/
theorem follows_expression {fuel : Nat} (enough : levels < fuel) (scope : Scope) (place : Nat) :
    Follows limit levels 0 (expression limit fuel scope place) (ParseM.expression levels scope place) := by
  intro s fits
  induction levels generalizing fuel scope place s with
  | zero =>
    obtain ⟨fuel, rfl⟩ : ∃ less, fuel = less + 1 := ⟨fuel - 1, by omega⟩
    cases ahead : s.reader.ahead.held.token with
    | word text =>
      have more : 0 < s.reader.ahead.left := by simp [Lookahead.left, ahead]
      cases limit with
      -- without a limit there are levels for all tokens, and here a token is ahead
      | none => exact absurd (fits.unlimited rfl) (Nat.not_le_of_gt more)
      | some n =>
        have deep : n ≤ s.depth := Nat.le_of_sub_eq_zero (fits.limited n rfl)
        refine ⟨s.deepest, ?_, Nat.le_refl _, fun _ _ => Nat.le_max_left _ _⟩
        rw [expression_of_word ahead, if_pos (by simpa using deep), ParseM.expression,
          ParseM.peekWord_bind ahead]
        rfl
    | integer _ | openParen | closeParen | comma | endOfInput =>
      exact followsAt_of_ne_word (by simp [ahead]) fuel scope place
  | succ levels ih =>
    obtain ⟨fuel, rfl⟩ : ∃ less, fuel = less + 1 := ⟨fuel - 1, by omega⟩
    cases ahead : s.reader.ahead.held.token with
    | word text =>
      -- the counter goes up where a level less is left, so that the two still fit together inside
      obtain ⟨shallow, inside⟩ := fits.raise
      have below := follows_form
        (fun scope place s fits => ih (Nat.lt_of_succ_lt_succ enough) scope place s fits)
        (ParseM.tracks_expression levels) text s.reader.ahead.held.span scope place
      rw [FollowsAt, expression_of_word ahead, if_neg (by simp [shallow]), ParseM.expression_of_word ahead]
      exact (below s.raise inside).deeper shallow
    | integer _ | openParen | closeParen | comma | endOfInput =>
      exact followsAt_of_ne_word (by simp [ahead]) fuel scope place

/-! ### Fuel -/

/-- The second step does what the first one does, where that is not given up. -/
def Agrees (m m' : CountM α) : Prop := ∀ s result, m s = some result → m' s = some result

theorem agrees_refl (m : CountM α) : Agrees m m := fun _ _ h => h

theorem Agrees.bind {m m' : CountM α} {f f' : α → CountM β} (hm : Agrees m m')
    (hf : ∀ x, Agrees (f x) (f' x)) :
    Agrees (m >>= f) (m' >>= f') := by
  intro s result h
  cases first : m s with
  | none => rw [bind_of_none first] at h; cases h
  | some found =>
    obtain ⟨e | x, t⟩ := found
    · rw [bind_of_error first] at h
      rwa [bind_of_error (hm s _ first)]
    · rw [bind_of_ok first] at h
      rw [bind_of_ok (hm s _ first)]
      exact hf x t result h

theorem Agrees.deeper {m m' : CountM α} (hm : Agrees m m') : Agrees (deeper m) (deeper m') := by
  intro s result h
  rw [deeper_eq, Option.map_eq_some_iff] at h ⊢
  obtain ⟨found, inside, same⟩ := h
  exact ⟨found, hm s.raise found inside, same⟩

section

variable {inner inner' : Scope → Nat → CountM Expr}
  (hi : ∀ scope place, Agrees (inner scope place) (inner' scope place))
include hi

theorem agrees_operand (scope : Scope) (place : Nat) :
    Agrees (operand inner scope place) (operand inner' scope place) := by
  rw [operand, operand]
  refine (agrees_refl _).bind fun found => ?_
  cases found.token with
  | word text =>
    dsimp only
    split
    · exact hi scope place
    · exact agrees_refl _
  | integer _ | openParen | closeParen | comma | endOfInput => exact agrees_refl _

theorem agrees_application (op : Operator) (scope : Scope) (place : Nat) :
    Agrees (application inner op scope place) (application inner' op scope place) := by
  rw [application, application]
  refine (agrees_refl _).bind fun _ => (agrees_refl _).bind fun _ => ?_
  refine (agrees_operand hi _ _).bind fun lhs => (agrees_refl _).bind fun _ => ?_
  exact (agrees_operand hi _ _).bind fun rhs => agrees_refl _

theorem agrees_letBinding (scope : Scope) (place : Nat) :
    Agrees (letBinding inner scope place) (letBinding inner' scope place) := by
  rw [letBinding, letBinding]
  refine (agrees_refl _).bind fun _ => (agrees_refl _).bind fun _ => (agrees_refl _).bind fun name => ?_
  refine (agrees_refl _).bind fun _ => (agrees_operand hi _ _).bind fun bound => ?_
  refine (agrees_refl _).bind fun _ => (agrees_refl _).bind fun _ => ?_
  exact (hi _ _).bind fun body => agrees_refl _

theorem agrees_form (word : String) (span : Span) (scope : Scope) (place : Nat) :
    Agrees (form inner word span scope place) (form inner' word span scope place) := by
  rw [form, form]
  split
  · exact agrees_application hi _ scope place
  · exact agrees_letBinding hi scope place
  · exact agrees_refl _

end

/-- More fuel changes no result. -/
theorem agrees_expression {fuel fuel' : Nat} (le : fuel ≤ fuel') (scope : Scope) (place : Nat) :
    Agrees (expression limit fuel scope place) (expression limit fuel' scope place) := by
  induction fuel generalizing fuel' scope place with
  | zero => exact fun _ _ h => nomatch h
  | succ fuel ih =>
    obtain ⟨fuel', rfl⟩ : ∃ less, fuel' = less + 1 := ⟨fuel' - 1, by omega⟩
    rw [expression, expression]
    refine (agrees_refl _).bind fun word => (agrees_refl _).bind fun depth => ?_
    split
    · exact agrees_refl _
    · exact (agrees_form (ih (Nat.le_of_succ_le_succ le)) word.1 word.2 scope place).deeper

/-- So the counting reader makes of a text what the reader makes of it. -/
theorem parseRecorded_eq {fuel : Nat} (enough : maxDepth < fuel) (text : String) :
    parseRecorded fuel text = some (Expr.parseRecorded text) := by
  rw [parseRecorded, Expr.parseRecorded]
  cases Lookahead.ofCursor (.ofString text) with
  | error e => rfl
  | ok ahead =>
    have followed : FollowsAt (some maxDepth) (program (some maxDepth) fuel) ParseM.program
        ⟨⟨ahead, #[]⟩, 0, 0⟩ := by
      rw [program, ParseM.program, FollowsAt, peek_bind, ParseM.peek_bind]
      split
      · have fits : Fits (some maxDepth) maxDepth 0 ⟨⟨ahead, #[]⟩, 0, 0⟩ := fits_some rfl
        refine (follows_expression enough .empty 0 _ fits).bind fun e t deepest _ => ?_
        exact (followsAt_reading _).bind fun _ _ _ _ => followsAt_reading (pure e)
      · exact followsAt_throw _
    obtain ⟨deepest, run, -⟩ := followed
    dsimp only
    rw [run]
    cases ParseM.program ⟨ahead, #[]⟩ <;> rfl

end

end CountM
end LetArith
