import LetArith.Evaluation
import LetArith.Expr.Parse

/-!
# LetArith.Failure — what went wrong, and where

A failure is an error in the text or an error in the arithmetic.  The first kind knows its columns, and
its report shows them under the source line; the second has none.
-/

namespace LetArith

/-- Why there is no value. -/
inductive Failure
  | parse (e : ParseError)
  | arithmetic (e : ArithmeticError)
  deriving DecidableEq

/-- The kinds of failure. -/
inductive FailureKind
  | lexical
  | parse
  | arithmetic
  | resource
  deriving DecidableEq

namespace FailureKind

/-- Every kind, in the order in which `FailureKind` lists them. -/
def all : List FailureKind := [.lexical, .parse, .arithmetic, .resource]

/-- The name of the kind, with which a report starts. -/
def text : FailureKind → String
  | lexical => "lexical"
  | parse => "parse"
  | arithmetic => "arithmetic"
  | resource => "resource"

end FailureKind

namespace Failure

/-- Tokens that are no tokens, a grammar that is not met, a limit that is passed, or numbers out of range. -/
def kind : Failure → FailureKind
  | parse (.lexical _) => .lexical
  | parse (.tooDeep _) => .resource
  | parse _ => .parse
  | arithmetic _ => .arithmetic

/-- The description without the kind. -/
def message : Failure → String
  | parse e => e.message
  | arithmetic e => e.message

/-- The columns at fault.  An error in the arithmetic has none. -/
def span? : Failure → Option Span
  | parse e => some e.span
  | arithmetic _ => none

/-- Kind and description. -/
def text (f : Failure) : String := f.kind.text ++ " error: " ++ f.message

/-- The line that marks columns: as many blanks as columns before, and a caret for each column, but at
least one. -/
def caretLine (s : Span) : String :=
  String.ofList (List.replicate s.start ' ' ++ List.replicate (max s.length 1) '^')

/-- The failure with the source line that it is about, the columns at fault marked below. -/
def report (f : Failure) (source : String) : String :=
  match f.span? with
  | some span =>
    f.kind.text ++ ":" ++ span.text ++ ": " ++ f.message ++ "\n     | \n   1 | " ++ source ++ "\n     | " ++
      caretLine span ++ "\n"
  | none => f.kind.text ++ ": " ++ f.message ++ "\n"

end Failure

/-- Reads a text as a program and computes its value. -/
def calculate (text : String) : Except Failure Int32 :=
  match Expr.parse text with
  | .error e => .error (.parse e)
  | .ok tree =>
    match tree.evaluate with
    | .error e => .error (.arithmetic e)
    | .ok value => .ok value

end LetArith
