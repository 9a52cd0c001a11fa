import LetArith.Proofs.Reading
import LetArith.Proofs.Scanning

/-!
# LetArith.Proofs.Buffering — what a lookahead makes of the calls of the scanner

A lookahead calls the scanner once when it is made and once more whenever a token is taken.  It may be
asked for its token in between, and it may be used further after an error.  Whatever is asked in
whatever order, the tokens come out as the scanner found them, and so do the errors.

* `Lookahead.performAll_spec`: from any state on, the tokens that are taken and the one that is held are
  those that the scanner finds.
* `lookahead_loses_nothing`: so are those of a text, from its start on.
-/

namespace LetArith

namespace Scanned

/-- The token that was found. -/
def lexeme? : Scanned → Option Lexeme
  | .ok found => some found
  | .error _ => none

/-- The error that was found. -/
def error? : Scanned → Option LexicalError
  | .ok _ => none
  | .error e => some e

end Scanned

namespace Lookahead

/-- What a lookahead can be asked to do. -/
inductive Call
  | peek
  | peekKind
  | advance
  deriving DecidableEq

/-- What it answers. -/
inductive Answer
  | lexeme (found : Lexeme)
  | kind (kind : TokenKind)
  | taken (result : Scanned)
  deriving DecidableEq

/-- What came of taking the token, if that was asked. -/
def Answer.taken? : Answer → Option Scanned
  | lexeme _ => none
  | kind _ => none
  | taken result => some result

/-- One call. -/
def perform (a : Lookahead) : Call → Answer × Lookahead
  | .peek => (.lexeme a.held, a)
  | .peekKind => (.kind a.held.token.kind, a)
  | .advance => (.taken a.advance.1, a.advance.2)

/-- Some calls, one after another. -/
def performAll (a : Lookahead) : List Call → List Answer × Lookahead
  | [] => ([], a)
  | call :: calls =>
    ((a.perform call).1 :: ((a.perform call).2.performAll calls).1, ((a.perform call).2.performAll calls).2)

/-- What came of taking tokens, in some calls. -/
def takings (a : Lookahead) (calls : List Call) : List Scanned :=
  (a.performAll calls).1.filterMap Answer.taken?

variable {a b : Lookahead} {calls : List Call}

theorem perform_advance_of_ok {found : Lexeme} {next : Cursor} (h : a.cursor.scan = (.ok found, next)) :
    a.perform .advance = (.taken (.ok a.held), ⟨found, next⟩) := by
  simp only [perform, advance, h]

theorem perform_advance_of_error {e : LexicalError} {next : Cursor} (h : a.cursor.scan = (.error e, next)) :
    a.perform .advance = (.taken (.error e), ⟨a.held, next⟩) := by
  simp only [perform, advance, h]

theorem takings_of_advance {result : Scanned} (h : a.perform .advance = (.taken result, b))
    (calls : List Call) :
    a.takings (.advance :: calls) = result :: b.takings calls ∧
      (a.performAll (.advance :: calls)).2 = (b.performAll calls).2 := by
  simp only [takings, performAll, h, List.filterMap_cons, Answer.taken?, and_self]

/-- By induction on the calls: the token that is held comes first, and behind it what the scanner finds. -/
theorem performAll_spec (a : Lookahead) (calls : List Call) :
    (a.takings calls).length = calls.count .advance ∧
    (a.takings calls).filterMap Scanned.lexeme? ++ [(a.performAll calls).2.held] =
      a.held :: (a.cursor.scans (calls.count .advance)).filterMap Scanned.lexeme? ∧
    (a.takings calls).filterMap Scanned.error? =
      (a.cursor.scans (calls.count .advance)).filterMap Scanned.error? := by
  induction calls generalizing a with
  | nil => exact ⟨rfl, rfl, rfl⟩
  | cons call calls ih =>
    cases call with
    | peek => exact ih a
    | peekKind => exact ih a
    | advance =>
      rw [List.count_cons_self, Cursor.scans_succ]
      cases hs : a.cursor.scan with
      | mk result next =>
        cases result with
        | ok found =>
          obtain ⟨takings, last⟩ := takings_of_advance (perform_advance_of_ok hs) calls
          obtain ⟨length, lexemes, errors⟩ := ih ⟨found, next⟩
          rw [takings, last]
          exact ⟨congrArg Nat.succ length, congrArg (a.held :: ·) lexemes, errors⟩
        | error e =>
          -- the token stays, and only the scanner has moved
          obtain ⟨takings, last⟩ := takings_of_advance (perform_advance_of_error hs) calls
          obtain ⟨length, lexemes, errors⟩ := ih ⟨a.held, next⟩
          rw [takings, last]
          exact ⟨congrArg Nat.succ length, lexemes, congrArg (e :: ·) errors⟩

end Lookahead

/-- Whatever a lookahead on a text is asked, also behind errors: the tokens that were taken and the one
that it holds are those that the scanner finds in one call more than tokens were asked for, in order,
and the errors are those that it finds.  A token that cannot be replaced is kept, and looking at it
changes nothing. -/
theorem lookahead_loses_nothing (text : String) (a : Lookahead)
    (made : Lookahead.ofCursor (.ofString text) = .ok a) (calls : List Lookahead.Call) :
    (a.takings calls).length = calls.count .advance ∧
    (a.takings calls).filterMap Scanned.lexeme? ++ [(a.performAll calls).2.held] =
      ((Cursor.ofString text).scans (calls.count .advance + 1)).filterMap Scanned.lexeme? ∧
    (a.takings calls).filterMap Scanned.error? =
      ((Cursor.ofString text).scans (calls.count .advance + 1)).filterMap Scanned.error? ∧
    (∀ e b, (a.performAll calls).2.perform .advance = (.taken (.error e), b) →
      b.held = (a.performAll calls).2.held) ∧
    (a.performAll calls).2.perform .peek = (.lexeme (a.performAll calls).2.held, (a.performAll calls).2) ∧
    (a.performAll calls).2.perform .peekKind =
      (.kind (a.performAll calls).2.held.token.kind, (a.performAll calls).2) := by
  have first := Lookahead.ofCursor_eq_ok_iff.mp made
  obtain ⟨length, lexemes, errors⟩ := a.performAll_spec calls
  rw [Cursor.scans_succ, first]
  refine ⟨length, lexemes, errors, fun e b h => ?_, rfl, rfl⟩
  obtain ⟨answer, rfl⟩ := Prod.mk.inj h
  exact Lookahead.held_advance_of_error (Prod.ext (Lookahead.Answer.taken.inj answer) rfl)

/-- Behind a minus sign alone the lookahead still holds the number before it, and the number after it
comes next. -/
theorem lookahead_loses_nothing_loneMinus :
    ∃ a, Lookahead.ofCursor (.ofString "1 - 2") = .ok a ∧
      (a.takings [.advance, .peek, .advance]).filterMap Scanned.lexeme? ++
          [(a.performAll [.advance, .peek, .advance]).2.held] = [⟨.integer 1, ⟨0, 1⟩⟩, ⟨.integer 2, ⟨4, 5⟩⟩] ∧
      (a.takings [.advance, .peek, .advance]).filterMap Scanned.error? = [.missingDigits ⟨2, 3⟩] ∧
      (a.perform .advance).2.held = a.held := by
  have made : Lookahead.ofCursor (.ofString "1 - 2") =
      .ok ⟨⟨.integer 1, ⟨0, 1⟩⟩, ⟨[' ', '-', ' ', '2'], 1⟩⟩ := by decide +kernel
  obtain ⟨-, lexemes, errors, -⟩ := lookahead_loses_nothing "1 - 2" _ made [.advance, .peek, .advance]
  obtain ⟨-, -, -, kept, -⟩ := lookahead_loses_nothing "1 - 2" _ made []
  refine ⟨_, made, lexemes.trans (by decide +kernel), errors.trans (by decide +kernel),
    kept (.missingDigits ⟨2, 3⟩) _ ?_⟩
  rfl

end LetArith
