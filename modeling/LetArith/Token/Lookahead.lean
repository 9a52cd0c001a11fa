import LetArith.Token.Scan

/-!
# LetArith.Token.Lookahead — one token ahead

Whoever reads a program has to see the next token before taking it.  A lookahead holds that token, and
the cursor behind it.  Taking the token reads the one after it first: if that fails, the held token
stays, and only the cursor moves on.

* `Lookahead.held_advance`: a token that was taken is the one that was held.
-/

namespace LetArith

/-- The next token, and the cursor behind it. -/
structure Lookahead where
  held : Lexeme
  cursor : Cursor
  deriving DecidableEq

namespace Lookahead

/-- Holds the first token at the cursor. -/
def ofCursor (c : Cursor) : Except LexicalError Lookahead :=
  match c.scan with
  | (.ok lexeme, next) => .ok ⟨lexeme, next⟩
  | (.error e, _) => .error e

/-- Takes the held token and holds the next one. -/
def advance (a : Lookahead) : Except LexicalError Lexeme × Lookahead :=
  match a.cursor.scan with
  | (.ok lexeme, next) => (.ok a.held, ⟨lexeme, next⟩)
  | (.error e, next) => (.error e, { a with cursor := next })

theorem held_advance {a b : Lookahead} {lexeme : Lexeme} (h : a.advance = (.ok lexeme, b)) :
    lexeme = a.held := by
  unfold advance at h
  split at h <;> cases h
  rfl

theorem held_advance_of_error {a b : Lookahead} {e : LexicalError} (h : a.advance = (.error e, b)) :
    b.held = a.held := by
  unfold advance at h
  split at h <;> cases h
  rfl

end Lookahead
end LetArith
