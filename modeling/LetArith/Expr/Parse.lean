import LetArith.Expr.ParseError
import LetArith.Expr.Same
import LetArith.Scope
import LetArith.Token.Lookahead

/-!
# LetArith.Expr.Parse — from text to trees

    program     ::=  expression end
    expression  ::=  operator ( operand , operand )  |  let ( name , operand , expression )
    operand     ::=  integer  |  expression  |  name

The name of a `let` is neither reserved nor visible already.  It is visible in the last part of the
`let` only, where it stands for the operand before.  A name as an operand has to be visible.

The reader sees one token ahead, and decides by it what to read.  It goes down at most `maxDepth`
levels: the levels that are left are an argument, and the recursion is on them.  Another argument is the
place in the text where a tree starts, counted in nodes, from which shared operands get their places.

While it reads it keeps a record of what happens: each token that comes into view, and each name that
gets bound.
-/

namespace LetArith

/-- What the reader records. -/
inductive ParseEvent
  | scanned (lexeme : Lexeme)
  | bound (name : String) (operand : Expr)
  deriving DecidableEq

/-- Where the reader is, and what it has recorded so far. -/
structure ParseState where
  ahead : Lookahead
  events : Array ParseEvent

/-- A step of the reader.  An error keeps the state in which it was found. -/
abbrev ParseM := EStateM ParseError ParseState

namespace ParseM

/-- The token ahead. -/
def peek : ParseM Lexeme := fun s => .ok s.ahead.held s

/-- Takes the token ahead, and records the one behind it. -/
def advance : ParseM Lexeme := fun s =>
  match s.ahead.advance with
  | (.ok lexeme, ahead) => .ok lexeme ⟨ahead, s.events.push (.scanned ahead.held)⟩
  | (.error e, ahead) => .error (.lexical e) { s with ahead := ahead }

/-- Records that a name gets bound. -/
def recordBound (name : String) (operand : Expr) : ParseM Unit := fun s =>
  .ok () { s with events := s.events.push (.bound name operand) }

/-- Takes a token that has to be of the given kind. -/
def expect (kind : TokenKind) : ParseM Lexeme := do
  let found ← advance
  if found.token.kind = kind then return found else throw (.unexpectedToken kind.text found)

/-- The word ahead, with which an expression has to start. -/
def peekWord : ParseM (String × Span) := do
  let found ← peek
  match found.token with
  | .word text => return (text, found.span)
  | _ => throw (.unexpectedToken Keyword.listing found)

/-- Takes the name that a `let` binds. -/
def newName (scope : Scope) : ParseM String := do
  let found ← advance
  match found.token with
  | .word name =>
    if (Keyword.ofText? name).isSome then throw (.reservedName name found.span)
    else if scope.contains name then throw (.redeclaration name found.span)
    else return name
  | _ => throw (.unexpectedToken "variable name" found)

/-- Reads an operand that starts at `place`, with `inner` for the expressions below it. -/
def operand (inner : Scope → Nat → ParseM Expr) (scope : Scope) (place : Nat) : ParseM Expr := do
  let found ← peek
  match found.token with
  | .integer value =>
    let _ ← advance
    return .integer value
  | .word text =>
    if (Keyword.ofText? text).isSome then inner scope place
    else
      match scope.lookup? text with
      | some shared =>
        let _ ← advance
        return .var text shared.place shared.expr
      | none => throw (.unboundVariable text found.span)
  | _ => throw (.invalidOperand found)

/-- Reads the application of an operator that starts at `place`. -/
def application (inner : Scope → Nat → ParseM Expr) (op : Operator) (scope : Scope) (place : Nat) :
    ParseM Expr := do
  let _ ← expect .word
  let _ ← expect .openParen
  let lhs ← operand inner scope (place + 1)
  let _ ← expect .comma
  let rhs ← operand inner scope (place + 1 + lhs.nodeCount)
  let _ ← expect .closeParen
  return .binary op lhs rhs

/-- Reads a `let` that starts at `place`. -/
def letBinding (inner : Scope → Nat → ParseM Expr) (scope : Scope) (place : Nat) : ParseM Expr := do
  let _ ← expect .word
  let _ ← expect .openParen
  let name ← newName scope
  let _ ← expect .comma
  let bound ← operand inner scope (place + 1)
  let _ ← expect .comma
  -- only from here on the name is visible, so that its operand cannot refer to it
  recordBound name bound
  let body ← inner (scope.bind name ⟨place + 1, bound⟩) (place + 1 + bound.nodeCount)
  let _ ← expect .closeParen
  return .letIn name bound body

/-- Reads an expression that starts at `place` and nests at most `levels` deep. -/
def expression : (levels : Nat) → Scope → (place : Nat) → ParseM Expr
  | 0, _, _ => do
    -- any word is too deep here, also one that starts no expression
    let (_, span) ← peekWord
    throw (.tooDeep span)
  | levels + 1, scope, place => do
    let (word, span) ← peekWord
    match Keyword.ofText? word with
    | some (.operator op) => application (expression levels) op scope place
    | some .letIn => letBinding (expression levels) scope place
    | none => throw (.unknownOperation word span)

/-- Reads a program up to the end of the text. -/
def program : ParseM Expr := do
  let first ← peek
  if first.token.kind = .word then
    let e ← expression maxDepth .empty 0
    let _ ← expect .endOfInput
    return e
  else throw (.missingExpression first)

end ParseM

namespace Expr

/-- Reads a text as a program, and says what was recorded meanwhile. -/
def parseRecorded (text : String) : Except ParseError Expr × Array ParseEvent :=
  match Lookahead.ofCursor (.ofString text) with
  | .error e => (.error (.lexical e), #[])
  | .ok ahead =>
    match ParseM.program ⟨ahead, #[]⟩ with
    | .ok e s => (.ok e, s.events)
    | .error e s => (.error e, s.events)

/-- Reads a text as a program. -/
def parse (text : String) : Except ParseError Expr := (parseRecorded text).1

end Expr

/-- Two texts are read alike: as trees that are the same, or with the same error. -/
def parsedAlike : Except ParseError Expr → Except ParseError Expr → Bool
  | .ok d, .ok e => Expr.Same d e
  | .error e, .error f => e = f
  | _, _ => false

end LetArith
