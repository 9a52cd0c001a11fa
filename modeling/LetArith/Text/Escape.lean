/-!
# LetArith.Text.Escape — characters in messages

A message quotes a character of the input so that it stays one line of printable ASCII: the blanks,
quotes and the backslash that a quotation could not hold as they are get a backslash, every other
printable ASCII character stands for itself, and the rest is written by its number.
-/

namespace LetArith.Text

/-- The number of a character in hexadecimal between braces, after a backslash and `u`. -/
def escapeNumber (c : Char) : List Char := ['\\', 'u', '\x7b'] ++ Nat.toDigits 16 c.toNat ++ ['\x7d']

/-- The characters that quote `c` in a message. -/
def escape (c : Char) : List Char :=
  match c with
  | '\t' => ['\\', 't']
  | '\r' => ['\\', 'r']
  | '\n' => ['\\', 'n']
  | '\'' => ['\\', '\'']
  | '"' => ['\\', '"']
  | '\\' => ['\\', '\\']
  | c => if 0x20 ≤ c.toNat ∧ c.toNat ≤ 0x7e then [c] else escapeNumber c

end LetArith.Text
