import LetArith.CommandLine.Completion
import LetArith.CommandLine.Log
import LetArith.CommandLine.Request

/-!
# LetArith.CommandLine.Reply — what the program answers

An answer is an exit code and two texts.  If the expression fails, nothing is printed but the report, on
the error channel and behind the log.

* `Mode.perform`: what is printed about an expression, and the log of the work.
* `Request.reply_print`: the verbosity has no say in the exit code and in what is printed.
-/

namespace LetArith
namespace CommandLine

/-- The exit code, and what goes to the two output channels. -/
structure Reply where
  code : Nat
  output : String
  errors : String
  deriving DecidableEq

/-- The line that lists a token. -/
def tokenLine (lexeme : Lexeme) : String := lexeme.span.text ++ ": " ++ lexeme.token.description ++ "\n"

/-- Reads an expression, with the log of it. -/
def readLogged (source : String) : Except ParseError Expr × List LogEntry :=
  let (result, events) := Expr.parseRecorded source
  let log := events.toList.map LogEntry.parsing
  match result with
  | .ok tree => (.ok tree, log)
  | .error e => (.error e, log ++ [.notParsed e])

/-- Computes the value of a tree, with the log of it. -/
def computeLogged (tree : Expr) : Except ArithmeticError Int32 × List LogEntry :=
  let (result, entered) := tree.evaluateRecorded
  (result, .parsed tree :: entered.toList.map LogEntry.entered ++ [.evaluated result])

/-- What is printed about an expression, and the log of the work. -/
def Mode.perform (mode : Mode) (source : String) : Except Failure String × List LogEntry :=
  match mode with
  | .tokens =>
    match tokenize source with
    | .ok lexemes => (.ok (String.join (lexemes.map tokenLine)), [])
    | .error e => (.error (.parse (.lexical e)), [])
  | .tree =>
    match readLogged source with
    | (.ok program, log) => (.ok (program.text ++ "\n"), log)
    | (.error e, log) => (.error (.parse e), log)
  | .value =>
    match readLogged source with
    | (.ok program, log) =>
      match computeLogged program with
      | (.ok v, more) => (.ok (toString v.toInt ++ "\n"), log ++ more)
      | (.error e, more) => (.error (.arithmetic e), log ++ more)
    | (.error e, log) => (.error (.parse e), log)

namespace Request

/-- What the program answers. -/
def reply : Request → Reply
  | print mode source verbosity =>
    match mode.perform source with
    | (.ok output, log) => ⟨0, output, LogEntry.render verbosity source log⟩
    | (.error f, log) =>
      ⟨1, "", LogEntry.render verbosity source (log ++ [.failed f.kind]) ++ f.report source⟩
  | completion shell => ⟨0, shell.completionScript, ""⟩
  | help => ⟨0, helpText, ""⟩
  | helpUnasked => ⟨0, "", helpText⟩
  | version => ⟨0, versionText, ""⟩

theorem reply_print (mode : Mode) (source : String) (v w : Nat) :
    (print mode source v).reply.code = (print mode source w).reply.code ∧
      (print mode source v).reply.output = (print mode source w).reply.output := by
  unfold reply
  dsimp only
  split <;> exact ⟨rfl, rfl⟩

end Request

/-- What the program answers to its arguments. -/
def answer (arguments : List String) : Reply :=
  match Request.ofArguments arguments with
  | .ok request => request.reply
  | .error e => ⟨1, "", e.line ++ "\n"⟩

end CommandLine
end LetArith
