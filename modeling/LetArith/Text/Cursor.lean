/-!
# LetArith.Text.Cursor — a place in a text

A cursor is what remains of a text together with the column where the rest begins.  The end of the text
is a state of the cursor and not a character: `Cursor.endMark` stands in for the missing character
there, but a text may hold that character like any other.

* `Cursor.run_append_rest_skipWhile`: a run and what follows it are the text that was there.
* `Cursor.column_skipWhile`: the column moves by the length of the run.
-/

namespace LetArith

/-- What remains of a text, and the column where it begins. -/
structure Cursor where
  rest : List Char
  column : Nat
  deriving DecidableEq

namespace Cursor

/-- The cursor before the first character of a text. -/
def ofString (text : String) : Cursor := ⟨text.toList, 0⟩

/-- What `peek` and `advance` show at the end of the text. -/
def endMark : Char := '\x00'

/-- Nothing remains. -/
def isAtEnd (c : Cursor) : Bool := c.rest.isEmpty

/-- The next character, or the end mark. -/
def peek (c : Cursor) : Char := c.rest.headD endMark

/-- The next character, or the end mark, and the cursor behind it. -/
def advance (c : Cursor) : Char × Cursor :=
  match c.rest with
  | [] => (endMark, c)
  | ch :: rest => (ch, ⟨rest, c.column + 1⟩)

/-- The longest run of characters at the cursor that satisfy `p`. -/
def run (p : Char → Bool) (c : Cursor) : List Char := c.rest.takeWhile p

/-- The cursor behind the longest run of characters that satisfy `p`. -/
def skipWhile (p : Char → Bool) (c : Cursor) : Cursor := ⟨c.rest.dropWhile p, c.column + (c.run p).length⟩

/-- The longest run of characters that satisfy `p`, and the cursor behind it. -/
def takeWhile (p : Char → Bool) (c : Cursor) : String × Cursor := (String.ofList (c.run p), c.skipWhile p)

@[simp] theorem run_append_rest_skipWhile (p : Char → Bool) (c : Cursor) :
    c.run p ++ (c.skipWhile p).rest = c.rest :=
  List.takeWhile_append_dropWhile

@[simp] theorem column_skipWhile (p : Char → Bool) (c : Cursor) :
    (c.skipWhile p).column = c.column + (c.run p).length := rfl

theorem length_rest_skipWhile (p : Char → Bool) (c : Cursor) :
    (c.run p).length + (c.skipWhile p).rest.length = c.rest.length := by
  rw [← List.length_append, run_append_rest_skipWhile]

theorem forall_mem_run (p : Char → Bool) (c : Cursor) : ∀ ch ∈ c.run p, p ch = true := by
  intro ch h
  have all := List.all_takeWhile (l := c.rest) (p := p)
  exact List.all_eq_true.mp all ch h

end Cursor
end LetArith
