import LetArith.Keyword
import LetArith.Token.Scan

/-!
# LetArith.Expr.ParseError — why a text is not a program

An error holds what it found and where.  Nesting beyond the limit is an error of its own kind: the text
may well be a program, but it is not read any further.
-/

namespace LetArith

/-- The number of operators and `let`s that may stand inside one another. -/
def maxDepth : Nat := 1000

/-- Why a text is not read as a program. -/
inductive ParseError
  | lexical (e : LexicalError)
  | unexpectedToken (expected : String) (found : Lexeme)
  | missingExpression (found : Lexeme)
  | unknownOperation (name : String) (span : Span)
  | invalidOperand (found : Lexeme)
  | unboundVariable (name : String) (span : Span)
  | reservedName (name : String) (span : Span)
  | redeclaration (name : String) (span : Span)
  | tooDeep (span : Span)
  deriving DecidableEq

namespace ParseError

/-- The columns at fault. -/
def span : ParseError → Span
  | lexical e => e.span
  | unexpectedToken _ found => found.span
  | missingExpression found => found.span
  | unknownOperation _ span => span
  | invalidOperand found => found.span
  | unboundVariable _ span => span
  | reservedName _ span => span
  | redeclaration _ span => span
  | tooDeep span => span

/-- What was expected, and what was found instead. -/
def message : ParseError → String
  | lexical e => e.message
  | unexpectedToken expected found => "expected '" ++ expected ++ "' but got '" ++ found.token.text ++ "'"
  | missingExpression found => "expected " ++ Keyword.listing ++ " but got '" ++ found.token.text ++ "'"
  | unknownOperation name _ => "operation '" ++ name ++ "' not supported, expected " ++ Keyword.listing
  | invalidOperand found =>
    "error parsing operand: expected integer, expression or variable but got '" ++ found.token.text ++ "'"
  | unboundVariable name _ => "error parsing operand: '" ++ name ++ "' is not a declared variable"
  | reservedName name _ => "'" ++ name ++ "' is reserved and cannot name a variable"
  | redeclaration name _ => "variable '" ++ name ++ "' is already declared in this scope"
  | tooDeep _ => "expression is nested deeper than " ++ toString maxDepth ++ " levels"

end ParseError
end LetArith
