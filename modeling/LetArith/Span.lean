/-!
# LetArith.Span — columns of the input line

The input is one line of text.  A span is a half-open range of its columns, counted in characters from 0.

* `Span.text`: a span is shown by the line and the column where it starts, both counted from 1.
* `Span.length`: a range whose end lies before its start is empty.
-/

namespace LetArith

/-- The columns from `start` up to, but not including, `stop`. -/
structure Span where
  start : Nat
  stop : Nat
  deriving DecidableEq, Inhabited

namespace Span

/-- The one column `column`. -/
def single (column : Nat) : Span := ⟨column, column + 1⟩

/-- The number of columns in the range. -/
def length (s : Span) : Nat := s.stop - s.start

/-- Line and column of the start. -/
def text (s : Span) : String := "1:" ++ toString (s.start + 1)

end Span
end LetArith
