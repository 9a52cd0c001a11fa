import LetArith.Proofs.FirstError
import LetArith.Proofs.Precedence
import LetArith.Proofs.Replies
import LetArith.Proofs.Scanning
import Mathlib.Data.List.ReduceOption

/-!
# LetArith.Proofs.Recording — what the reader records

Whenever the reader takes a token, it records the one behind it, which comes into view.  When it has
taken the comma behind the operand of a `let`, it also records that the name gets bound.  So the record
of a text tells how far the reader came, and in which order it met the `let`s of the tree.

* `ParseM.tells_part`: what is recorded while an expression or operand is read, token by token.
* `ParseM.tracks_expression`: what is recorded of a text that is refused, up to the token that is wrong.
* `CommandLine.eventLine_iff`, `CommandLine.not_eventLine`: the log has one line about each event, and no
  other line looks like that.
* `CommandLine.log_tells_course`: so the log tells the course of the reader on every text.
-/

namespace LetArith

open Grammar

/-! ### Events -/

namespace ParseEvent

/-- The token that came into view. -/
def scanned? : ParseEvent → Option Lexeme
  | scanned lexeme => some lexeme
  | bound _ _ => none

/-- The name that got bound, and its operand. -/
def bound? : ParseEvent → Option (String × Expr)
  | scanned _ => none
  | bound name operand => some (name, operand)

/-- What is recorded while tokens are taken: each one that comes into view, and then the name that gets
bound, if one does. -/
def course (views : List Lexeme) (bindings : List (Option (String × Expr))) : List ParseEvent :=
  (views.zip bindings).flatMap fun pair =>
    scanned pair.1 :: pair.2.toList.map fun binding => bound binding.1 binding.2

variable {views views' : List Lexeme} {bindings bindings' : List (Option (String × Expr))}

@[simp] theorem course_nil (bindings : List (Option (String × Expr))) : course [] bindings = [] := rfl

@[simp] theorem course_cons (view : Lexeme) (binding : Option (String × Expr)) :
    course (view :: views) (binding :: bindings) =
      scanned view :: (binding.toList.map fun binding => bound binding.1 binding.2) ++
        course views bindings := by
  simp [course]

theorem course_append (same : views.length = bindings.length) :
    course (views ++ views') (bindings ++ bindings') = course views bindings ++ course views' bindings' := by
  rw [course, List.zip_append same, List.flatMap_append, course, course]

/-- The tokens in view are recorded, in order. -/
theorem scanned?_course (same : views.length = bindings.length) :
    (course views bindings).filterMap scanned? = views := by
  induction views generalizing bindings with
  | nil => rfl
  | cons view views ih =>
    obtain ⟨binding, bindings, rfl⟩ := List.exists_cons_of_length_eq_add_one same.symm
    rw [course_cons, List.filterMap_append, ih (Nat.succ.inj same)]
    cases binding <;> rfl

/-- The names that get bound are recorded, in order. -/
theorem bound?_course (same : views.length = bindings.length) :
    (course views bindings).filterMap bound? = bindings.reduceOption := by
  induction views generalizing bindings with
  | nil =>
    obtain rfl := List.length_eq_zero_iff.mp same.symm
    rfl
  | cons view views ih =>
    obtain ⟨binding, bindings, rfl⟩ := List.exists_cons_of_length_eq_add_one same.symm
    rw [course_cons, List.filterMap_append, ih (Nat.succ.inj same)]
    cases binding <;> rfl

end ParseEvent

namespace Expr

/-- The `let`s that are written in a tree, each with its operand: those in the operand of a `let` come
before it, and those in its body behind it. -/
def lets : Expr → List (String × Expr)
  | integer _ => []
  | binary _ lhs rhs => lhs.lets ++ rhs.lets
  | letIn name bound body => bound.lets ++ (name, bound) :: body.lets
  | var _ _ _ => []

/-- For each token of a tree: the name that gets bound when it is taken, if it is the comma behind the
operand of a `let`. -/
def bindings : Expr → List (Option (String × Expr))
  | integer _ => [none]
  | binary _ lhs rhs => none :: none :: (lhs.bindings ++ none :: (rhs.bindings ++ [none]))
  | letIn name bound body =>
    none :: none :: none :: none :: (bound.bindings ++ some (name, bound) :: (body.bindings ++ [none]))
  | var _ _ _ => [none]

theorem length_bindings (e : Expr) : e.bindings.length = e.tokens.length := by
  induction e with
  | integer value => rfl
  | binary op lhs rhs ihl ihr => simp [bindings, tokens, ihl, ihr]
  | letIn name bound body ihb ihe => simp [bindings, tokens, ihb, ihe]
  | var name place operand _ => rfl

theorem length_bindings_pos (e : Expr) : 0 < e.bindings.length := by
  cases e <;> simp [bindings]

theorem reduceOption_bindings (e : Expr) : e.bindings.reduceOption = e.lets := by
  induction e with
  | integer value => rfl
  | binary op lhs rhs ihl ihr => simp [bindings, lets, List.reduceOption_append, ihl, ihr]
  | letIn name bound body ihb ihe => simp [bindings, lets, List.reduceOption_append, ihb, ihe]
  | var name place operand _ => rfl

end Expr

namespace ParseM

/-! ### What is recorded of a tree -/

section

variable {α β : Type} {lexeme : Lexeme} {lexemes front back : List Lexeme}
  {bindings bindings' : List (Option (String × Expr))} {x : α} {y : β}

/-- With these tokens ahead, the step takes them all for its value.  It records the token behind each of
them, with the names that get bound in between. -/
structure Tells (m : ParseM α) (lexemes : List Lexeme) (bindings : List (Option (String × Expr)))
    (x : α) : Prop where
  same : lexemes.length = bindings.length
  run : ∀ s b, s.ahead.Reads lexemes b → ∃ t, m s = .ok x t ∧ t.ahead = b ∧
    t.events.toList = s.events.toList ++ ParseEvent.course (lexemes ++ [b.held]).tail bindings

theorem tells_pure (x : α) : Tells (pure x) [] [] x := by
  refine ⟨rfl, fun s b h => ?_⟩
  cases h
  exact ⟨s, rfl, rfl, (List.append_nil _).symm⟩

/-- The tokens in view while one list is taken behind another. -/
theorem tail_views {b c : Lookahead} (h : b.Reads back c) :
    (front ++ back ++ [c.held]).tail = (front ++ [b.held]).tail ++ (back ++ [c.held]).tail := by
  have first : b.held = back.headD c.held := held_of_reads h rfl
  have views : back ++ [c.held] = b.held :: (back ++ [c.held]).tail := by
    rw [first]
    cases back <;> rfl
  rw [List.append_assoc, views, List.tail_cons]
  cases front <;> simp

theorem Tells.andThen {m : ParseM α} {f : α → ParseM β} (hm : Tells m front bindings x)
    (hf : Tells (f x) back bindings' y) : Tells (m >>= f) (front ++ back) (bindings ++ bindings') y := by
  refine ⟨by rw [List.length_append, List.length_append, hm.same, hf.same], fun s b h => ?_⟩
  obtain ⟨c, hfront, hback⟩ := Lookahead.reads_append_iff.mp h
  obtain ⟨t, first, rfl, record⟩ := hm.run s c hfront
  obtain ⟨u, second, ahead, record'⟩ := hf.run t b hback
  refine ⟨u, (bind_of_ok first f).trans second, ahead, ?_⟩
  have length : (front ++ [t.ahead.held]).tail.length = bindings.length := by simp [hm.same]
  rw [record', record, List.append_assoc, ← ParseEvent.course_append length, tail_views hback]

theorem tells_advance (lexeme : Lexeme) : Tells advance [lexeme] [none] lexeme := by
  refine ⟨rfl, fun s b h => ?_⟩
  obtain ⟨c, first, others⟩ := Lookahead.reads_cons_iff.mp h
  cases others
  exact ⟨⟨b, s.events.push (.scanned b.held)⟩, by simp only [advance, first], rfl, by simp⟩

theorem tells_expect {kind : TokenKind} (hk : lexeme.token.kind = kind) :
    Tells (expect kind) [lexeme] [none] lexeme := by
  refine (tells_advance lexeme).andThen ?_
  rw [if_pos hk]
  exact tells_pure lexeme

theorem tells_newName {scope : Scope} {name : String} (ht : lexeme.token = .word name)
    (free : Keyword.ofText? name = none) (fresh : scope.contains name = false) :
    Tells (newName scope) [lexeme] [none] name := by
  refine (tells_advance lexeme).andThen ?_
  simp only [ht, free, fresh]
  exact tells_pure name

/-- A name gets bound when the comma behind its operand is taken. -/
theorem Tells.binding {f : ParseM α} (comma : lexeme.token.kind = .comma) (name : String) (operand : Expr)
    (h : Tells f lexemes bindings x) :
    Tells (expect .comma >>= fun _ => recordBound name operand >>= fun _ => f) (lexeme :: lexemes)
      (some (name, operand) :: bindings) x := by
  refine ⟨by simp [h.same], fun s b reads => ?_⟩
  obtain ⟨c, first, others⟩ := Lookahead.reads_cons_iff.mp reads
  obtain ⟨t, taken, rfl, record⟩ := (tells_expect comma).run s c (Lookahead.reads_singleton first)
  obtain ⟨u, last, ahead, record'⟩ := h.run ⟨t.ahead, t.events.push (.bound name operand)⟩ b others
  refine ⟨u, (bind_of_ok taken _).trans last, ahead, ?_⟩
  have views : ([lexeme] ++ lexemes ++ [b.held]).tail = [t.ahead.held] ++ (lexemes ++ [b.held]).tail :=
    tail_views others
  rw [List.singleton_append, List.singleton_append] at views
  rw [views, ParseEvent.course_cons, record', Array.toList_push, record]
  simp

/-- Looking at the token ahead records nothing. -/
theorem Tells.peek {f : Lexeme → ParseM α} (h : Tells (f lexeme) (lexeme :: lexemes) bindings x) :
    Tells (ParseM.peek >>= f) (lexeme :: lexemes) bindings x := by
  refine ⟨h.same, fun s b reads => ?_⟩
  rw [peek_bind, reads.held_eq]
  exact h.run s b reads

theorem Tells.peekWord {f : String × Span → ParseM α} {text : String} (ht : lexeme.token = .word text)
    (h : Tells (f (text, lexeme.span)) (lexeme :: lexemes) bindings x) :
    Tells (ParseM.peekWord >>= f) (lexeme :: lexemes) bindings x := by
  refine ⟨h.same, fun s b reads => ?_⟩
  rw [peekWord_bind (by rw [reads.held_eq, ht]), reads.held_eq]
  exact h.run s b reads

/-- By induction on the derivation: what is recorded while its tokens are read. -/
theorem tells_part {n : Nat} {symbol : Symbol} {scope : Scope} {place level : Nat} {tokens : List Token}
    {e : Expr} (h : Derives (some n) symbol scope place level tokens e) :
    ∀ {levels : Nat} {lexemes : List Lexeme}, level + levels = n → lexemes.map Lexeme.token = tokens →
      Tells (readPart (expression levels) symbol scope place) lexemes e.bindings e := by
  induction h with
  | integer value =>
    intro levels lexemes hn ht
    obtain ⟨lexeme, rfl, hl⟩ := List.map_eq_singleton_iff.mp ht
    refine Tells.peek ?_
    rw [hl]
    exact (tells_advance lexeme).andThen (tells_pure _)
  | name free visible =>
    intro levels lexemes hn ht
    obtain ⟨lexeme, rfl, hl⟩ := List.map_eq_singleton_iff.mp ht
    refine Tells.peek ?_
    simp only [hl, free, visible]
    exact (tells_advance lexeme).andThen (tells_pure _)
  | expression inner ih =>
    intro levels lexemes hn ht
    have told := ih hn ht
    obtain ⟨keyword, rest, rfl⟩ := inner.expression_head
    obtain ⟨lexeme, lexemes, rfl, hl, -⟩ := List.map_eq_cons_iff.mp ht
    refine Tells.peek ?_
    simp only [hl, Keyword.ofText?_text]
    exact told
  | application op within left right ihl ihr =>
    intro levels lexemes hn ht
    -- an operator below the limit has a level left, which its operands do without
    have lt := within n rfl
    obtain ⟨levels, rfl⟩ : ∃ deeper, levels = deeper + 1 := ⟨levels - 1, by omega⟩
    obtain ⟨word, opening, comma, closing, lhsLexemes, rhsLexemes, rfl, t₁, t₂, tl, t₃, tr, t₄⟩ :=
      exists_lexemes_application ht
    refine Tells.peekWord t₁ ?_
    have hk : Keyword.ofText? op.word = some (.operator op) := Keyword.ofText?_text (.operator op)
    simp only [hk]
    refine (tells_expect (by rw [t₁]; rfl)).andThen ?_
    refine (tells_expect (by rw [t₂]; rfl)).andThen ?_
    refine (ihl (by omega) tl).andThen ?_
    refine (tells_expect (by rw [t₃]; rfl)).andThen ?_
    refine (ihr (by omega) tr).andThen ?_
    exact (tells_expect (by rw [t₄]; rfl)).andThen (tells_pure _)
  | letIn within free fresh operand inner ihb ihe =>
    intro levels lexemes hn ht
    have lt := within n rfl
    obtain ⟨levels, rfl⟩ : ∃ deeper, levels = deeper + 1 := ⟨levels - 1, by omega⟩
    obtain ⟨word, opening, named, comma, comma', closing, boundLexemes, bodyLexemes, rfl, t₁, t₂, t₃, t₄, tb,
      t₅, te, t₆⟩ := exists_lexemes_letIn ht
    refine Tells.peekWord t₁ ?_
    have hk : Keyword.ofText? "let" = some .letIn := Keyword.ofText?_text .letIn
    simp only [hk]
    refine (tells_expect (by rw [t₁]; rfl)).andThen ?_
    refine (tells_expect (by rw [t₂]; rfl)).andThen ?_
    refine (tells_newName t₃ free fresh).andThen ?_
    refine (tells_expect (by rw [t₄]; rfl)).andThen ?_
    refine (ihb (by omega) tb).andThen ?_
    -- the name gets bound with the comma behind its operand, not when its operand has been read
    refine Tells.binding (by rw [t₅]; rfl) _ _ ?_
    refine (ihe (by omega) te).andThen ?_
    exact (tells_expect (by rw [t₆]; rfl)).andThen (tells_pure _)

/-- What is recorded of a program: behind its tokens the end is seen, and once more when it is taken. -/
theorem tells_program {last : Lexeme} {e : Expr} (h : Program (some maxDepth) (lexemes.map Lexeme.token) e)
    (hl : last.token = .endOfInput) : Tells program (lexemes ++ [last]) (e.bindings ++ [none]) e := by
  have told := tells_part h (Nat.zero_add maxDepth) rfl
  have ended : Tells (expect .endOfInput >>= fun _ => pure e) [last] [none] e :=
    (tells_expect (by rw [hl]; rfl)).andThen (tells_pure e)
  obtain ⟨keyword, rest, ht⟩ := h.expression_head
  obtain ⟨first, others, rfl, hf, -⟩ := List.map_eq_cons_iff.mp ht
  refine Tells.peek ?_
  rw [if_pos (by rw [hf]; rfl)]
  exact told.andThen ended

end

/-! ### What is recorded of a text that is refused -/

/-- The tokens that have come into view. -/
def seen (s : ParseState) : List Lexeme := s.events.toList.filterMap ParseEvent.scanned?

/-- These tokens were taken between the two states, and the one behind each of them came into view.
None was the end. -/
structure Took (s : ParseState) (front : List Lexeme) (t : ParseState) : Prop where
  reads : s.ahead.Reads front t.ahead
  inner : ∀ lexeme ∈ front, lexeme.token ≠ .endOfInput
  seen_eq : seen t = seen s ++ (front ++ [t.ahead.held]).tail

/-- Reading on from the first state ends with the error in the second one: no token can be read behind
the one that is taken, or something is wrong with the token ahead.  Either it is enough to look at that
one, or it was taken. -/
inductive Fails (s : ParseState) : ParseError → ParseState → Prop
  | lexical {front : List Lexeme} {t : ParseState} {e : LexicalError} {next : Lookahead}
      (taken : Took s front t) (failed : t.ahead.advance = (.error e, next)) :
      Fails s (.lexical e) { t with ahead := next }
  | looked {front : List Lexeme} {t : ParseState} {fault : Fault} (taken : Took s front t)
      (early : fault.peeked = true) : Fails s (fault.about t.ahead.held) t
  | took {front : List Lexeme} {t u : ParseState} {fault : Fault} (taken : Took s front t)
      (step : advance t = .ok t.ahead.held u) (late : fault.peeked = false) :
      Fails s (fault.about t.ahead.held) u

/-- Whatever the step comes to, what was taken has been recorded. -/
structure Tracks {α : Type} (m : ParseM α) (s : ParseState) : Prop where
  ok : ∀ {x t}, m s = .ok x t → ∃ front, Took s front t
  error : ∀ {err t}, m s = .error err t → Fails s err t

section

variable {α β : Type} {s t u : ParseState} {front back : List Lexeme} {err : ParseError}

theorem Took.nil (s : ParseState) : Took s [] s := ⟨.nil _, List.forall_mem_nil _, (List.append_nil _).symm⟩

theorem Took.trans (h : Took s front t) (h' : Took t back u) : Took s (front ++ back) u := by
  refine ⟨h.reads.append h'.reads, List.forall_mem_append.mpr ⟨h.inner, h'.inner⟩, ?_⟩
  rw [h'.seen_eq, h.seen_eq, List.append_assoc, tail_views h'.reads]

theorem seen_of_advance {lexeme : Lexeme} (h : advance s = .ok lexeme t) :
    seen t = seen s ++ [t.ahead.held] := by
  unfold advance at h
  split at h
  · cases h
    simp [seen, ParseEvent.scanned?]
  · cases h

theorem took_of_advance {lexeme : Lexeme} (h : advance s = .ok lexeme t)
    (inner : lexeme.token ≠ .endOfInput) :
    Took s [lexeme] t :=
  ⟨Lookahead.reads_singleton (advance_of_ok h), by simpa using inner, seen_of_advance h⟩

theorem Fails.behind (taken : Took s front t) (h : Fails t err u) : Fails s err u := by
  cases h with
  | lexical taken' failed => exact .lexical (taken.trans taken') failed
  | looked taken' early => exact .looked (taken.trans taken') early
  | took taken' step late => exact .took (taken.trans taken') step late

theorem Tracks.bind {m : ParseM α} {f : α → ParseM β} (hm : Tracks m s)
    (hf : ∀ x t, m s = .ok x t → Tracks (f x) t) : Tracks (m >>= f) s := by
  constructor
  · intro y u h
    obtain ⟨x, t, first, h⟩ := bind_eq_ok_iff.mp h
    obtain ⟨front, taken⟩ := hm.ok first
    obtain ⟨back, taken'⟩ := (hf x t first).ok h
    exact ⟨front ++ back, taken.trans taken'⟩
  · intro err u h
    rcases bind_eq_error_iff.mp h with h | ⟨x, t, first, h⟩
    · exact hm.error h
    · obtain ⟨front, taken⟩ := hm.ok first
      exact .behind taken ((hf x t first).error h)

theorem tracks_pure (x : α) (s : ParseState) : Tracks (pure x) s := by
  constructor
  · intro y t h
    obtain ⟨-, rfl⟩ := pure_eq_ok_iff.mp h
    exact ⟨[], .nil s⟩
  · intro err t h
    cases h

/-- A step that stops because of the token ahead. -/
theorem tracks_throw {fault : Fault} (early : fault.peeked = true) (same : err = fault.about s.ahead.held) :
    Tracks (throw err : ParseM α) s := by
  constructor
  · intro x t h
    cases h
  · intro err' t h
    obtain ⟨rfl, rfl⟩ := throw_eq_error_iff.mp h
    exact same ▸ .looked (.nil s) early

/-- A step that takes the token ahead and then decides against it. -/
theorem fails_of_taking {f : Lexeme → ParseM α} (h : (advance >>= f) s = .error err u)
    (against : ∀ t, f s.ahead.held t = .error err u →
      t = u ∧ ∃ fault : Fault, fault.peeked = false ∧ err = fault.about s.ahead.held) : Fails s err u := by
  rcases bind_eq_error_iff.mp h with h | ⟨found, t, first, h⟩
  · unfold advance at h
    split at h
    · cases h
    · next e next failed =>
      cases h
      exact .lexical (.nil s) failed
  · obtain rfl := Lookahead.held_advance (advance_of_ok first)
    obtain ⟨rfl, fault, late, rfl⟩ := against t h
    exact .took (.nil s) first late

/-- A step that takes the token ahead. -/
theorem tracks_taking (inner : s.ahead.held.token ≠ .endOfInput) (x : α) :
    Tracks (advance >>= fun _ => pure x) s := by
  constructor
  · intro y t h
    obtain ⟨found, t, first, h⟩ := bind_eq_ok_iff.mp h
    obtain ⟨-, rfl⟩ := pure_eq_ok_iff.mp h
    obtain rfl := Lookahead.held_advance (advance_of_ok first)
    exact ⟨_, took_of_advance first inner⟩
  · intro err t h
    exact fails_of_taking h fun t h => by cases h

theorem fails_of_expect {kind : TokenKind} (h : expect kind s = .error err t) : Fails s err t := by
  refine fails_of_taking h fun u h => ?_
  split at h
  · cases h
  · obtain ⟨rfl, rfl⟩ := throw_eq_error_iff.mp h
    refine ⟨rfl, .unexpectedToken kind.text, ?_, rfl⟩
    cases kind <;> decide

theorem tracks_expect {kind : TokenKind} (inner : kind ≠ .endOfInput) (s : ParseState) :
    Tracks (expect kind) s := by
  refine ⟨fun {found t} h => ?_, fails_of_expect⟩
  obtain ⟨lexeme, u, first, h⟩ := bind_eq_ok_iff.mp h
  split at h
  · next same =>
    obtain ⟨rfl, rfl⟩ := pure_eq_ok_iff.mp h
    refine ⟨[lexeme], took_of_advance first ?_⟩
    intro ending
    rw [ending] at same
    exact inner same.symm
  · cases h

theorem tracks_newName (scope : Scope) (s : ParseState) : Tracks (newName scope) s := by
  constructor
  · intro name t h
    obtain ⟨found, u, first, h⟩ := bind_eq_ok_iff.mp h
    cases ht : found.token with
    | word text =>
      simp only [ht] at h
      split at h
      · cases h
      · split at h
        · cases h
        · obtain ⟨-, rfl⟩ := pure_eq_ok_iff.mp h
          exact ⟨[found], took_of_advance first (by simp [ht])⟩
    | integer _ | openParen | closeParen | comma | endOfInput =>
      rw [ht] at h
      cases h
  · -- the token is taken before anything is decided about it, so that the one behind it is in view
    intro err t h
    refine fails_of_taking h fun u h => ?_
    cases ht : s.ahead.held.token with
    | word text =>
      simp only [ht] at h
      split at h
      · obtain ⟨rfl, rfl⟩ := throw_eq_error_iff.mp h
        exact ⟨rfl, .reservedName, rfl, by simp [Fault.about, ht, Token.text]⟩
      · split at h
        · obtain ⟨rfl, rfl⟩ := throw_eq_error_iff.mp h
          exact ⟨rfl, .redeclaration, rfl, by simp [Fault.about, ht, Token.text]⟩
        · cases h
    | integer _ | openParen | closeParen | comma | endOfInput =>
      rw [ht] at h
      obtain ⟨rfl, rfl⟩ := throw_eq_error_iff.mp h
      exact ⟨rfl, .unexpectedToken "variable name", by decide, rfl⟩

theorem tracks_recordBound (name : String) (operand : Expr) (s : ParseState) :
    Tracks (recordBound name operand) s := by
  constructor
  · intro u t h
    cases h
    refine ⟨[], .nil _, List.forall_mem_nil _, ?_⟩
    simp [seen, ParseEvent.scanned?]
  · intro err t h
    cases h

theorem tracks_peekWord (s : ParseState) : Tracks peekWord s := by
  constructor
  · intro word t h
    obtain ⟨-, rfl⟩ := peekWord_of_ok h
    exact ⟨[], .nil s⟩
  · intro err t h
    cases ht : s.ahead.held.token with
    | word text =>
      rw [peekWord, peek_bind] at h
      simp only [ht] at h
      cases h
    | integer _ | openParen | closeParen | comma | endOfInput =>
      rw [peekWord, peek_bind] at h
      simp only [ht] at h
      have early : (Fault.unexpectedToken Keyword.listing).peeked = true := by decide
      exact (tracks_throw early rfl).error h

theorem Tracks.peek {f : Lexeme → ParseM α} (h : Tracks (f s.ahead.held) s) : Tracks (ParseM.peek >>= f) s :=
  ⟨fun run => h.ok run, fun run => h.error run⟩

theorem tracks_operand {inner : Scope → Nat → ParseM Expr}
    (hi : ∀ scope place s, Tracks (inner scope place) s)
    (scope : Scope) (place : Nat) (s : ParseState) : Tracks (operand inner scope place) s := by
  refine Tracks.peek ?_
  cases ht : s.ahead.held.token with
  | integer value => exact tracks_taking (by simp [ht]) _
  | word text =>
    dsimp only
    split
    · exact hi scope place s
    · cases scope.lookup? text with
      | some shared => exact tracks_taking (by simp [ht]) _
      | none =>
        -- nothing is bound to the word, which is decided without taking it
        have early : Fault.unboundVariable.peeked = true := rfl
        exact tracks_throw early (by simp [Fault.about, ht, Token.text])
  | openParen | closeParen | comma | endOfInput =>
    have early : Fault.invalidOperand.peeked = true := rfl
    exact tracks_throw early rfl

theorem tracks_application {inner : Scope → Nat → ParseM Expr}
    (hi : ∀ scope place s, Tracks (inner scope place) s)
    (op : Operator) (scope : Scope) (place : Nat) (s : ParseState) :
    Tracks (application inner op scope place) s := by
  refine (tracks_expect (by decide) s).bind fun _ t _ => ?_
  refine (tracks_expect (by decide) t).bind fun _ t _ => ?_
  refine (tracks_operand hi _ _ t).bind fun _ t _ => ?_
  refine (tracks_expect (by decide) t).bind fun _ t _ => ?_
  refine (tracks_operand hi _ _ t).bind fun _ t _ => ?_
  exact (tracks_expect (by decide) t).bind fun _ t _ => tracks_pure _ t

theorem tracks_letBinding {inner : Scope → Nat → ParseM Expr}
    (hi : ∀ scope place s, Tracks (inner scope place) s)
    (scope : Scope) (place : Nat) (s : ParseState) : Tracks (letBinding inner scope place) s := by
  refine (tracks_expect (by decide) s).bind fun _ t _ => ?_
  refine (tracks_expect (by decide) t).bind fun _ t _ => ?_
  refine (tracks_newName scope t).bind fun _ t _ => ?_
  refine (tracks_expect (by decide) t).bind fun _ t _ => ?_
  refine (tracks_operand hi _ _ t).bind fun _ t _ => ?_
  refine (tracks_expect (by decide) t).bind fun _ t _ => ?_
  refine (tracks_recordBound _ _ t).bind fun _ t _ => ?_
  refine (hi _ _ t).bind fun _ t _ => ?_
  exact (tracks_expect (by decide) t).bind fun _ t _ => tracks_pure _ t

/-- By induction on the levels that are left. -/
theorem tracks_expression (levels : Nat) : ∀ scope place s, Tracks (expression levels scope place) s := by
  induction levels with
  | zero =>
    intro scope place s
    refine (tracks_peekWord s).bind fun ⟨text, span⟩ t h => ?_
    obtain ⟨held, rfl⟩ := peekWord_of_ok h
    have early : Fault.tooDeep.peeked = true := rfl
    exact tracks_throw early (by rw [Fault.about, held])
  | succ levels ih =>
    intro scope place s
    refine (tracks_peekWord s).bind fun ⟨text, span⟩ t h => ?_
    obtain ⟨held, rfl⟩ := peekWord_of_ok h
    dsimp only
    split
    · exact tracks_application ih _ scope place s
    · exact tracks_letBinding ih scope place s
    · have early : Fault.unknownOperation.peeked = true := rfl
      exact tracks_throw early (by rw [Fault.about, held, Token.text])

/-- What was recorded of a program that is refused. -/
theorem fails_of_program (h : program s = .error err t) : Fails s err t := by
  obtain h | ⟨first, u, hp, h⟩ := bind_eq_error_iff.mp h
  · cases h
  · obtain ⟨rfl, rfl⟩ := peek_eq_ok_iff.mp hp
    split at h
    · have tracks := tracks_expression maxDepth .empty 0 s
      rcases bind_eq_error_iff.mp h with h | ⟨e, u, read, h⟩
      · exact tracks.error h
      · obtain ⟨front, taken⟩ := tracks.ok read
        rcases bind_eq_error_iff.mp h with h | ⟨found, v, last, h⟩
        · exact .behind taken (fails_of_expect h)
        · cases h
    · have early : Fault.missingExpression.peeked = true := rfl
      exact (tracks_throw early rfl).error h

end

end ParseM

/-! ### Texts -/

/-- What comes into view of a text with a wrong token behind other ones: those behind the first one and
up to the wrong one, if it is enough to look at that one.  Otherwise it is taken, and the next one comes
into view too, or the end once more. -/
structure InView (text : String) (fault : Fault) (front : List Lexeme) (found : Lexeme)
    (views : List Lexeme) : Prop where
  shown : (Cursor.ofString text).Shows front found
  peeked : fault.peeked = true → views = (front ++ [found]).tail
  taken : fault.peeked = false → ∃ next, views = (front ++ [found, next]).tail ∧
    ((Cursor.ofString text).Shows (front ++ [found]) next ∨ found = endLexeme text ∧ next = endLexeme text)

theorem Cursor.Shows.eq_endLexeme {text : String} {front : List Lexeme} {found : Lexeme}
    (h : (Cursor.ofString text).Shows front found) (ending : found.token = .endOfInput) :
    found = endLexeme text := by
  obtain ⟨last, next, munched, scanned⟩ := h
  have call : Scanner.call text front.length = .ok found := by
    rw [Scanner.call, Cursor.nthScan, munched.scans_eq.1, scanned]
  rw [endLexeme, ← Scanner.span_of_endOfInput call ending, ← ending]

/-- What is taken behind the end is the end again. -/
theorem Lookahead.held_of_endOfInput {start : Cursor} {a b : Lookahead} {lexeme : Lexeme}
    (first : ofCursor start = .ok a) (taken : a.advance = (.ok lexeme, b))
    (ending : a.held.token = .endOfInput) : b.held = a.held := by
  obtain ⟨-, next⟩ := advance_eq_ok_iff.mp taken
  have again := Cursor.scan_of_endOfInput (ofCursor_eq_ok_iff.mp first) ending
  rw [ofCursor_eq_ok_iff, again] at next
  exact (Except.ok.inj (congrArg Prod.fst next)).symm

theorem Lookahead.scan_of_advance_error {a b : Lookahead} {e : LexicalError} (h : a.advance = (.error e, b)) :
    a.cursor.scan = (.error e, b.cursor) := by
  unfold advance at h
  split at h
  · cases h
  · next e next hs =>
    cases h
    exact hs

namespace ParseM

variable {text : String} {a : Lookahead} {s t : ParseState} {front : List Lexeme} {err : ParseError}

/-- What was taken of a text is what it is munched into, and the token ahead is the next one. -/
theorem Took.exists_munches (taken : Took ⟨a, #[]⟩ front s)
    (ha : Lookahead.ofCursor (.ofString text) = .ok a) :
    ∃ last, (Cursor.ofString text).Munches front last ∧ Lookahead.ofCursor last = .ok s.ahead :=
  (Lookahead.reads_iff_munches ha taken.inner).mp taken.reads

theorem Took.shows (taken : Took ⟨a, #[]⟩ front s) (ha : Lookahead.ofCursor (.ofString text) = .ok a) :
    (Cursor.ofString text).Shows front s.ahead.held := by
  obtain ⟨last, munched, here⟩ := taken.exists_munches ha
  exact ⟨last, s.ahead.cursor, munched, Lookahead.ofCursor_eq_ok_iff.mp here⟩

/-- The token ahead is one more, unless it is the end. -/
theorem Took.munches_held (taken : Took ⟨a, #[]⟩ front s) (ha : Lookahead.ofCursor (.ofString text) = .ok a)
    (inner : s.ahead.held.token ≠ .endOfInput) :
    (Cursor.ofString text).Munches (front ++ [s.ahead.held]) s.ahead.cursor := by
  obtain ⟨last, munched, here⟩ := taken.exists_munches ha
  have one : last.Munches [s.ahead.held] s.ahead.cursor :=
    Cursor.munches_cons_iff.mpr ⟨_, Lookahead.ofCursor_eq_ok_iff.mp here, inner, .nil _⟩
  exact Cursor.munches_append_iff.mpr ⟨last, munched, one⟩

/-- Behind the token ahead there is a lexical error. -/
theorem Took.failsAfter {e : LexicalError} {next : Lookahead} (taken : Took ⟨a, #[]⟩ front s)
    (ha : Lookahead.ofCursor (.ofString text) = .ok a) (failed : s.ahead.advance = (.error e, next)) :
    FailsAfter text (front ++ [s.ahead.held]) e := by
  have scanned := Lookahead.scan_of_advance_error failed
  refine ⟨s.ahead.cursor, next.cursor, taken.munches_held ha fun ending => ?_, scanned⟩
  obtain ⟨last, -, here⟩ := taken.exists_munches ha
  cases scanned.symm.trans (Cursor.scan_of_endOfInput (Lookahead.ofCursor_eq_ok_iff.mp here) ending)

/-- The token ahead is taken: behind it is the next one, or the end once more. -/
theorem Took.shows_next (taken : Took ⟨a, #[]⟩ front s) (ha : Lookahead.ofCursor (.ofString text) = .ok a)
    (step : advance s = .ok s.ahead.held t) :
    (Cursor.ofString text).Shows (front ++ [s.ahead.held]) t.ahead.held ∨
      s.ahead.held = endLexeme text ∧ t.ahead.held = endLexeme text := by
  have first := advance_of_ok step
  by_cases ending : s.ahead.held.token = .endOfInput
  · have last := (taken.shows ha).eq_endLexeme ending
    obtain ⟨cursor, -, here⟩ := taken.exists_munches ha
    exact .inr ⟨last, (Lookahead.held_of_endOfInput here first ending).trans last⟩
  · obtain ⟨-, next⟩ := Lookahead.advance_eq_ok_iff.mp first
    exact .inl ⟨_, _, taken.munches_held ha ending, Lookahead.ofCursor_eq_ok_iff.mp next⟩

/-- What came into view of a text with an error: its tokens up to the one in front of a lexical error,
or up to the one that is wrong, and the one behind it if the wrong one was taken. -/
theorem Fails.seen (h : Fails ⟨a, #[]⟩ err s) (ha : Lookahead.ofCursor (.ofString text) = .ok a) :
    (∃ e good, err = .lexical e ∧ FailsAfter text good e ∧ seen s = good.tail) ∨
      ∃ (fault : Fault) (front : List Lexeme) (found : Lexeme), err = fault.about found ∧
        InView text fault front found (seen s) := by
  cases h with
  | @lexical front t e next taken failed => exact .inl ⟨e, _, rfl, taken.failsAfter ha failed, taken.seen_eq⟩
  | @looked front _ fault taken early =>
    refine .inr ⟨fault, front, _, rfl, taken.shows ha, fun _ => taken.seen_eq, fun late => ?_⟩
    cases early.symm.trans late
  | @took front t _ fault taken step late =>
    have behind := taken.shows_next ha step
    refine .inr ⟨fault, front, _, rfl, taken.shows ha, fun early => ?_, fun _ => ⟨s.ahead.held, ?_, behind⟩⟩
    · cases early.symm.trans late
    · rw [seen_of_advance step, taken.seen_eq]
      cases front <;> simp [ParseM.seen]

end ParseM

namespace Expr

/-- What is recorded while a text is read, in order. -/
def recorded (text : String) : List ParseEvent := (parseRecorded text).2.toList

variable {text : String} {a : Lookahead} {e : Expr} {s : ParseState} {err : ParseError}

theorem recorded_of_ok (ha : Lookahead.ofCursor (.ofString text) = .ok a)
    (hs : ParseM.program ⟨a, #[]⟩ = .ok e s) :
    recorded text = s.events.toList := by
  rw [recorded, parseRecorded, ha]
  simp only [hs]

/-- What is recorded of a text that is read: one token in view behind each of its tokens, and behind its
end the end. -/
theorem recorded_of_parse (h : parse text = .ok e) : ∃ lexemes, tokenize text = .ok lexemes ∧
    lexemes.map Lexeme.token = e.tokens ∧
    recorded text =
      ParseEvent.course (lexemes.tail ++ [endLexeme text, endLexeme text]) (e.bindings ++ [none]) := by
  obtain ⟨lexemes, read, derived⟩ := parse_eq_ok_iff.mp h
  obtain ⟨inner, a, b, last, ha, reads, ending⟩ := Lookahead.tokens_eq_ok_iff.mp read
  -- behind the lexemes the reader holds the end, and once that is taken it holds the end again
  obtain ⟨c, front, behind⟩ := Lookahead.reads_append_iff.mp reads
  obtain ⟨cursor, munched, hc⟩ := (Lookahead.reads_iff_munches ha inner).mp front
  obtain rfl := behind.held_eq
  have last : c.held = endLexeme text :=
    Cursor.Shows.eq_endLexeme ⟨cursor, c.cursor, munched, Lookahead.ofCursor_eq_ok_iff.mp hc⟩ ending
  have again : b.held = endLexeme text := by
    obtain ⟨d, taken, nothing⟩ := Lookahead.reads_cons_iff.mp behind
    cases nothing
    rw [Lookahead.held_of_endOfInput hc taken ending, last]
  obtain ⟨s, accepted, -, record⟩ := (ParseM.tells_program derived ending).run ⟨a, #[]⟩ b reads
  refine ⟨lexemes, read, derived.tokens_eq, ?_⟩
  -- a tree has a token, so that the one not in view is not the end
  have some : lexemes ≠ [] := by
    rintro rfl
    have first := e.length_bindings_pos
    rw [length_bindings, ← derived.tokens_eq] at first
    cases first
  rw [recorded_of_ok ha accepted, record, last, again, List.append_assoc, List.tail_append_of_ne_nil some]
  rfl

/-- The tokens that came into view while a text was read. -/
def viewed (text : String) : List Lexeme := (recorded text).filterMap ParseEvent.scanned?

/-- What came into view of a text with an error. -/
theorem viewed_of_error (h : parse text = .error err) :
    (∃ e good, err = .lexical e ∧ FailsAfter text good e ∧ viewed text = good.tail) ∨
      ∃ (fault : Fault) (front : List Lexeme) (found : Lexeme), err = fault.about found ∧
        InView text fault front found (viewed text) := by
  unfold parse parseRecorded at h
  rw [viewed, recorded, parseRecorded]
  cases ha : Lookahead.ofCursor (.ofString text) with
  | error e =>
    -- no reader was made, and nothing was recorded
    rw [ha] at h
    cases h
    refine .inl ⟨e, [], rfl, ?_, rfl⟩
    unfold Lookahead.ofCursor at ha
    split at ha
    · cases ha
    · next e' next hs =>
      cases ha
      exact ⟨_, next, .nil _, hs⟩
  | ok a =>
    cases hs : ParseM.program ⟨a, #[]⟩ with
    | ok e s =>
      simp only [ha, hs] at h
      cases h
    | error e s =>
      simp only [ha, hs] at h
      cases h
      simp only [hs]
      exact (ParseM.fails_of_program hs).seen ha

end Expr

/-! ### The log -/

namespace CommandLine

/-- How a line of the log shows a token. -/
inductive Shown : Token → String → Prop
  | integer (value : Int32) : Shown (.integer value) (toString value.toInt)
  | word (text : String) : Shown (.word text) text
  | openParen : Shown .openParen "("
  | closeParen : Shown .closeParen ")"
  | comma : Shown .comma ","
  | endOfInput : Shown .endOfInput "EOF"

/-- The line of the log about an event of the reader: its level, the text that is read, and the token
with the line and column where it starts, counted from 1, or the name with the operand that is bound to
it. -/
inductive EventLine (source : String) : ParseEvent → String → Prop
  | scanned {token : Token} {name : String} {start stop : Nat} (shown : Shown token name) :
      EventLine source (.scanned ⟨token, ⟨start, stop⟩⟩) ("TRACE parse\x7binput=" ++ source ++
        "\x7d: scanned token=" ++ name ++ " span=1:" ++ toString (start + 1) ++ "\n")
  | bound (name : String) (operand : Expr) :
      EventLine source (.bound name operand) ("DEBUG parse\x7binput=" ++ source ++
        "\x7d: binding variable name=" ++ name ++ " value=" ++ operand.text ++ "\n")

/-- The least verbosity with which the log tells of an event: twice `-v` for a name that is bound,
thrice for a token. -/
def leastVerbosity : ParseEvent → Nat
  | .scanned _ => 3
  | .bound _ _ => 2

variable {mode : Mode} {text : String}

theorem shown_text (token : Token) : Shown token token.text := by
  cases token with
  | integer value => exact .integer value
  | word text => exact .word text
  | openParen => exact .openParen
  | closeParen => exact .closeParen
  | comma => exact .comma
  | endOfInput => exact .endOfInput

theorem Shown.eq_text {token : Token} {name : String} (h : Shown token name) : name = token.text := by
  cases h <;> rfl

/-- The line of the log about a token that came into view, letter by letter. -/
theorem line_scanned (token : Token) (start stop : Nat) :
    LogEntry.line text (.parsing (.scanned ⟨token, ⟨start, stop⟩⟩)) = "TRACE parse\x7binput=" ++ text ++
      "\x7d: scanned token=" ++ token.text ++ " span=1:" ++ toString (start + 1) ++ "\n" := by
  -- the line is put together from pieces; as a list of characters it is the same however they are grouped
  show "TRACE" ++ " " ++ ("parse\x7binput=" ++ text ++ "\x7d: " ++ "scanned token=" ++ token.text ++
    " span=" ++ ("1:" ++ toString (start + 1))) ++ "\n" = _
  refine String.toList_inj.mp ?_
  simp

/-- The line of the log about a name that got bound, letter by letter. -/
theorem line_bound (name : String) (operand : Expr) :
    LogEntry.line text (.parsing (.bound name operand)) = "DEBUG parse\x7binput=" ++ text ++
      "\x7d: binding variable name=" ++ name ++ " value=" ++ operand.text ++ "\n" := by
  show "DEBUG" ++ " " ++ ("parse\x7binput=" ++ text ++ "\x7d: " ++ "binding variable name=" ++ name ++
    " value=" ++ operand.text) ++ "\n" = _
  refine String.toList_inj.mp ?_
  simp

/-- The log has one line about an event of the reader. -/
theorem eventLine_iff {event : ParseEvent} {line : String} :
    EventLine text event line ↔ line = LogEntry.line text (.parsing event) := by
  constructor
  · intro h
    cases h with
    | scanned shown => rw [shown.eq_text, line_scanned]
    | bound name operand => rw [line_bound]
  · rintro rfl
    cases event with
    | scanned lexeme =>
      rw [line_scanned]
      exact .scanned (shown_text lexeme.token)
    | bound name operand =>
      rw [line_bound]
      exact .bound name operand

/-- The log has that line about nothing else. -/
theorem not_eventLine {entry : LogEntry} (other : ∀ event, entry ≠ .parsing event) (event : ParseEvent) :
    ¬ EventLine text event (entry.line text) := by
  rw [eventLine_iff]
  intro same
  have letters := congrArg String.toList same
  unfold LogEntry.line LogEntry.level LogEntry.text at letters
  -- all of the lines differ from the two about events in their first letters, or directly behind the text
  cases entry with
  | parsing event => exact other event rfl
  | evaluated result =>
    cases result <;> cases event <;> simp [LogLevel.name, LogEntry.parseContext] at letters
  | _ => cases event <;> simp [LogLevel.name, LogEntry.parseContext] at letters

theorem forall₂_eventLine_iff {events : List ParseEvent} {lines : List String} :
    List.Forall₂ (EventLine text) events lines ↔
      lines = events.map fun event => LogEntry.line text (.parsing event) := by
  induction events generalizing lines with
  | nil => simp
  | cons event events ih =>
    simp only [List.forall₂_cons_left_iff, eventLine_iff, ih, List.map_cons]
    constructor
    · rintro ⟨line, lines, rfl, rfl, rfl⟩
      rfl
    · rintro rfl
      exact ⟨_, _, rfl, rfl, rfl⟩

/-- The log starts with what was recorded while the text was read, and has nothing else of that kind. -/
def Logs (text : String) (log : List LogEntry) : Prop :=
  ∃ others, log = (Expr.recorded text).map .parsing ++ others ∧ ∀ event, LogEntry.parsing event ∉ others

theorem Logs.append {log more : List LogEntry} (h : Logs text log)
    (quiet : ∀ event, LogEntry.parsing event ∉ more) :
    Logs text (log ++ more) := by
  obtain ⟨others, rfl, none⟩ := h
  exact ⟨others ++ more, List.append_assoc .., fun event => by simp [none event, quiet event]⟩

theorem logs_readLogged (text : String) : Logs text (readLogged text).2 := by
  have start : Logs text ((Expr.recorded text).map .parsing) := ⟨[], by simp, by simp⟩
  rw [readLogged]
  dsimp only
  split
  · exact start
  · exact start.append (by simp)

theorem computeLogged_quiet (e : Expr) (event : ParseEvent) :
    LogEntry.parsing event ∉ (computeLogged e).2 := by
  simp [computeLogged]

/-- Unless only tokens are asked for, the text is read, and the log tells how. -/
theorem logs_perform (reads : mode ≠ .tokens) : Logs text (mode.perform text).2 := by
  have read := logs_readLogged text
  cases mode with
  | tokens => exact absurd rfl reads
  | tree =>
    rw [Mode.perform]
    revert read
    cases readLogged text with
    | mk result log => cases result <;> exact id
  | value =>
    rw [Mode.perform]
    revert read
    cases readLogged text with
    | mk result log =>
      cases result with
      | error e => exact id
      | ok e =>
        intro read
        have more := read.append (computeLogged_quiet e)
        revert more
        dsimp only
        cases computeLogged e with
        | mk value more => cases value <;> exact id

theorem render_append (verbosity : Nat) (log more : List LogEntry) :
    LogEntry.render verbosity text (log ++ more) =
      LogEntry.render verbosity text log ++ LogEntry.render verbosity text more := by
  simp [LogEntry.render]

/-- Of the events, the log shows those that the verbosity is enough for. -/
theorem render_parsing (text : String) (verbosity : Nat) (events : List ParseEvent) :
    ∃ lines, List.Forall₂ (EventLine text)
      (events.filter fun event => leastVerbosity event ≤ verbosity) lines ∧
      LogEntry.render verbosity text (events.map .parsing) = String.join lines := by
  refine ⟨_, forall₂_eventLine_iff.mpr rfl, ?_⟩
  have level (event : ParseEvent) : (LogEntry.parsing event).level.verbosity = leastVerbosity event := by
    cases event <;> rfl
  simp only [LogEntry.render, List.filter_map, List.map_map, Function.comp_def, level]

/-- The error channel has the log, and behind it the report if there is one. -/
theorem Asks.errors_eq {arguments : List String} {verbosity : Nat} (asks : Asks arguments mode text verbosity)
    (reads : mode ≠ .tokens) :
    ∃ log rest, (answer arguments).errors = LogEntry.render verbosity text log ++ rest ∧ Logs text log ∧
      (rest = "" ∨ ∃ failure, mode.result text = .error failure ∧ rest = failure.report text) := by
  have told : Logs text (mode.perform text).2 := logs_perform reads
  have first := perform_fst mode text
  rw [asks.answer_eq, Request.reply]
  cases hp : mode.perform text with
  | mk result log =>
    rw [hp] at told first
    cases result with
    | ok output => exact ⟨log, "", String.append_empty.symm, told, .inl rfl⟩
    | error failure =>
      have quiet : ∀ event, LogEntry.parsing event ∉ [LogEntry.failed failure.kind] := by simp
      exact ⟨log ++ [.failed failure.kind], _, rfl, told.append quiet, .inr ⟨failure, first.symm, rfl⟩⟩

/-- The log tells the course of the reader on every text.  In this order: (1) if the text is read, the
tokens behind the first one come into view, and then the end twice; the `let`s of the tree bind their
names in order, those in the operand of a `let` first and those in its body last, each directly after
the token behind the comma that follows its operand came into view; (2) if there is a lexical error, the
tokens in front of it come into view but the first; (3) if a token is wrong, those up to it come into
view if it is enough to look at that token, and otherwise the next one too, where the end follows the
end.  (4) Whatever the verbosity, the log starts with one line about each of these events that it is
enough for, in order: a line of level `DEBUG` with the name and its operand, or one of level `TRACE`
with the token and its place.  No other line looks like that, and behind them all stands the report. -/
theorem log_tells_course (text : String) :
    (∀ e, Expr.parse text = .ok e → ∃ lexemes, tokenize text = .ok lexemes ∧
      lexemes.map Lexeme.token = e.tokens ∧
      Expr.recorded text =
        ParseEvent.course (lexemes.tail ++ [endLexeme text, endLexeme text]) (e.bindings ++ [none]) ∧
      Expr.viewed text = lexemes.tail ++ [endLexeme text, endLexeme text] ∧
      (Expr.recorded text).filterMap ParseEvent.bound? = e.lets) ∧
    (∀ e, Expr.parse text = .error (.lexical e) →
      ∃ good, FailsAfter text good e ∧ Expr.viewed text = good.tail) ∧
    (∀ err, Expr.parse text = .error err → (∀ e, err ≠ .lexical e) →
      ∃ (fault : Fault) (front : List Lexeme) (found : Lexeme), err = fault.about found ∧
        InView text fault front found (Expr.viewed text)) ∧
    ∀ arguments mode verbosity, Asks arguments mode text verbosity → mode ≠ .tokens →
      ∃ lines others rest,
        List.Forall₂ (EventLine text)
          ((Expr.recorded text).filter fun event => leastVerbosity event ≤ verbosity) lines ∧
        (answer arguments).errors = String.join lines ++ LogEntry.render verbosity text others ++ rest ∧
        (∀ entry ∈ others, ∀ event, ¬ EventLine text event (entry.line text)) ∧
        (rest = "" ∨ ∃ failure, mode.result text = .error failure ∧ rest = failure.report text) := by
  refine ⟨fun e h => ?_, fun e h => ?_, fun err h other => ?_, fun arguments mode verbosity asks reads => ?_⟩
  · obtain ⟨lexemes, read, tokens, record⟩ := Expr.recorded_of_parse h
    have length : e.bindings.length = lexemes.length := by
      rw [Expr.length_bindings, ← tokens, List.length_map]
    have some : 0 < lexemes.length := length ▸ e.length_bindings_pos
    have same : (lexemes.tail ++ [endLexeme text, endLexeme text]).length =
        (e.bindings ++ [none]).length := by
      simp [length]
      omega
    refine ⟨lexemes, read, tokens, record, ?_, ?_⟩
    · rw [Expr.viewed, record, ParseEvent.scanned?_course same]
    · rw [record, ParseEvent.bound?_course same, List.reduceOption_append, Expr.reduceOption_bindings]
      simp
  · obtain ⟨e', good, same, failed, seen⟩ | ⟨fault, front, found, same, -⟩ := Expr.viewed_of_error h
    · obtain rfl := ParseError.lexical.inj same
      exact ⟨good, failed, seen⟩
    · exact absurd same.symm (fault.about_ne_lexical found e)
  · obtain ⟨e, good, same, -⟩ | wrong := Expr.viewed_of_error h
    · exact absurd same (other e)
    · exact wrong
  · obtain ⟨log, rest, errors, ⟨others, rfl, quiet⟩, reported⟩ := asks.errors_eq reads
    obtain ⟨lines, told, shown⟩ := render_parsing text verbosity (Expr.recorded text)
    refine ⟨lines, others, rest, told, by rw [errors, render_append, shown], fun entry listed => ?_, reported⟩
    exact not_eventLine fun event same => quiet event (same ▸ listed)

/-- A `let` in the operand of a `let` binds its name first.  Behind an operand without a comma one more
token comes into view, and in front of a bad character there is just the parenthesis.  The log of a
`let` has a line about each token but the first, and the one about its name in between.  With less
verbosity the log of the two `let`s starts with the lines about their names. -/
theorem log_tells_course_nestedLet :
    (Expr.recorded "let(a,let(b,1,add(b,b)),add(a,2))").filterMap ParseEvent.bound? =
        [("b", .integer 1), ("a", .letIn "b" (.integer 1)
          (.binary .add (.var "b" 2 (.integer 1)) (.var "b" 2 (.integer 1))))] ∧
      (∃ (front : List Lexeme) (next : Lexeme), (Cursor.ofString "add(1 2").Shows front ⟨.integer 2, ⟨6, 7⟩⟩ ∧
        Expr.viewed "add(1 2" = (front ++ [⟨.integer 2, ⟨6, 7⟩⟩, next]).tail) ∧
      (∃ good, FailsAfter "add(?" good (.invalidCharacter '?' ⟨4, 5⟩) ∧ Expr.viewed "add(?" = good.tail) ∧
      (∃ behind, (answer (Mode.value.arguments "let(a,-7,add(a,a))" 3)).errors =
        "TRACE parse\x7binput=let(a,-7,add(a,a))\x7d: scanned token=( span=1:4\n" ++
        "TRACE parse\x7binput=let(a,-7,add(a,a))\x7d: scanned token=a span=1:5\n" ++
        "TRACE parse\x7binput=let(a,-7,add(a,a))\x7d: scanned token=, span=1:6\n" ++
        "TRACE parse\x7binput=let(a,-7,add(a,a))\x7d: scanned token=-7 span=1:7\n" ++
        "TRACE parse\x7binput=let(a,-7,add(a,a))\x7d: scanned token=, span=1:9\n" ++
        "TRACE parse\x7binput=let(a,-7,add(a,a))\x7d: scanned token=add span=1:10\n" ++
        "DEBUG parse\x7binput=let(a,-7,add(a,a))\x7d: binding variable name=a value=-7\n" ++
        "TRACE parse\x7binput=let(a,-7,add(a,a))\x7d: scanned token=( span=1:13\n" ++
        "TRACE parse\x7binput=let(a,-7,add(a,a))\x7d: scanned token=a span=1:14\n" ++
        "TRACE parse\x7binput=let(a,-7,add(a,a))\x7d: scanned token=, span=1:15\n" ++
        "TRACE parse\x7binput=let(a,-7,add(a,a))\x7d: scanned token=a span=1:16\n" ++
        "TRACE parse\x7binput=let(a,-7,add(a,a))\x7d: scanned token=) span=1:17\n" ++
        "TRACE parse\x7binput=let(a,-7,add(a,a))\x7d: scanned token=) span=1:18\n" ++
        "TRACE parse\x7binput=let(a,-7,add(a,a))\x7d: scanned token=EOF span=1:19\n" ++
        "TRACE parse\x7binput=let(a,-7,add(a,a))\x7d: scanned token=EOF span=1:19\n" ++ behind) ∧
      ∃ behind, (answer (Mode.value.arguments "let(a,let(b,1,add(b,b)),add(a,2))" 2)).errors =
        "DEBUG parse\x7binput=let(a,let(b,1,add(b,b)),add(a,2))\x7d: " ++
          "binding variable name=b value=1\n" ++
        "DEBUG parse\x7binput=let(a,let(b,1,add(b,b)),add(a,2))\x7d: " ++
          "binding variable name=a value=let(b, 1, add(b, b))\n" ++ behind := by
  obtain ⟨accepted, -, -, nested⟩ := log_tells_course "let(a,let(b,1,add(b,b)),add(a,2))"
  obtain ⟨-, -, refused, -⟩ := log_tells_course "add(1 2"
  obtain ⟨-, lexical, -, -⟩ := log_tells_course "add(?"
  obtain ⟨-, -, -, logged⟩ := log_tells_course "let(a,-7,add(a,a))"
  have read : Expr.parse "let(a,let(b,1,add(b,b)),add(a,2))" = .ok (.letIn "a" (.letIn "b" (.integer 1)
      (.binary .add (.var "b" 2 (.integer 1)) (.var "b" 2 (.integer 1))))
      (.binary .add (.var "a" 1 (.letIn "b" (.integer 1)
        (.binary .add (.var "b" 2 (.integer 1)) (.var "b" 2 (.integer 1))))) (.integer 2))) := by
    decide +kernel
  have wrong : Expr.parse "add(1 2" = .error (.unexpectedToken "," ⟨.integer 2, ⟨6, 7⟩⟩) := by decide +kernel
  have bad : Expr.parse "add(?" = .error (.lexical (.invalidCharacter '?' ⟨4, 5⟩)) := by decide +kernel
  have record : Expr.recorded "let(a,-7,add(a,a))" = [.scanned ⟨.openParen, ⟨3, 4⟩⟩,
      .scanned ⟨.word "a", ⟨4, 5⟩⟩, .scanned ⟨.comma, ⟨5, 6⟩⟩, .scanned ⟨.integer (-7), ⟨6, 8⟩⟩,
      .scanned ⟨.comma, ⟨8, 9⟩⟩, .scanned ⟨.word "add", ⟨9, 12⟩⟩, .bound "a" (.integer (-7)),
      .scanned ⟨.openParen, ⟨12, 13⟩⟩, .scanned ⟨.word "a", ⟨13, 14⟩⟩, .scanned ⟨.comma, ⟨14, 15⟩⟩,
      .scanned ⟨.word "a", ⟨15, 16⟩⟩, .scanned ⟨.closeParen, ⟨16, 17⟩⟩, .scanned ⟨.closeParen, ⟨17, 18⟩⟩,
      .scanned ⟨.endOfInput, ⟨18, 18⟩⟩, .scanned ⟨.endOfInput, ⟨18, 18⟩⟩] := by decide +kernel
  have names : (Expr.recorded "let(a,let(b,1,add(b,b)),add(a,2))").filter
      (fun event => leastVerbosity event ≤ 2) = [.bound "b" (.integer 1), .bound "a" (.letIn "b" (.integer 1)
        (.binary .add (.var "b" 2 (.integer 1)) (.var "b" 2 (.integer 1))))] := by decide +kernel
  refine ⟨?_, ?_, lexical _ bad, ?_, ?_⟩
  · obtain ⟨lexemes, -, -, -, -, bound⟩ := accepted _ read
    exact bound
  · obtain ⟨fault, front, found, same, view⟩ := refused _ wrong (by simp)
    have about : (Fault.unexpectedToken ",").about ⟨.integer 2, ⟨6, 7⟩⟩ = fault.about found := same
    obtain rfl := Fault.eq_of_about_eq about
    obtain rfl := (ParseError.unexpectedToken.inj about).2
    obtain ⟨next, seen, -⟩ := view.taken (by decide)
    exact ⟨front, next, view.shown, seen⟩
  · obtain ⟨lines, others, rest, told, errors, -⟩ :=
      logged _ _ 3 (asks_arguments .value "let(a,-7,add(a,a))" 3) (by decide)
    rw [forall₂_eventLine_iff.mp told, record, String.append_assoc] at errors
    exact ⟨_, errors⟩
  · obtain ⟨lines, others, rest, told, errors, -⟩ :=
      nested _ _ 2 (asks_arguments .value "let(a,let(b,1,add(b,b)),add(a,2))" 2) (by decide)
    rw [names] at told
    rw [forall₂_eventLine_iff.mp told, String.append_assoc] at errors
    exact ⟨_, errors⟩

end CommandLine
end LetArith
