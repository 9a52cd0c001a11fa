import LetArith.Failure

/-!
# LetArith.CommandLine.Log — what the program tells about its work

Log lines come in three levels, and the program shows the levels up to the verbosity that it was asked
for.  An entry is kept as what happened and becomes text only if it is shown.
-/

namespace LetArith
namespace CommandLine

/-- How much detail a log line is. -/
inductive LogLevel
  | info
  | debug
  | trace
  deriving DecidableEq

namespace LogLevel

/-- What a line of this level starts with. -/
def name : LogLevel → String
  | info => "INFO"
  | debug => "DEBUG"
  | trace => "TRACE"

/-- The least verbosity at which the level is shown. -/
def verbosity : LogLevel → Nat
  | info => 1
  | debug => 2
  | trace => 3

end LogLevel

/-- Something that happened. -/
inductive LogEntry
  | parsing (event : ParseEvent)
  | notParsed (e : ParseError)
  | parsed (tree : Expr)
  | entered (name : String)
  | evaluated (result : Except ArithmeticError Int32)
  | failed (kind : FailureKind)

namespace LogEntry

/-- How much detail the entry is. -/
def level : LogEntry → LogLevel
  | parsing (.scanned _) => .trace
  | parsing (.bound _ _) => .debug
  | notParsed _ => .debug
  | parsed _ => .info
  | entered _ => .trace
  | evaluated _ => .debug
  | failed _ => .debug

/-- What log lines about reading `source` start with. -/
def parseContext (source : String) : String := "parse\x7binput=" ++ source ++ "\x7d: "

/-- What happened, in words. -/
def text (source : String) : LogEntry → String
  | parsing (.scanned lexeme) =>
    parseContext source ++ "scanned token=" ++ lexeme.token.text ++ " span=" ++ lexeme.span.text
  | parsing (.bound name operand) =>
    parseContext source ++ "binding variable name=" ++ name ++ " value=" ++ operand.text
  | notParsed e => parseContext source ++ "error=" ++ e.message
  | parsed tree => "parsed expression nodes=" ++ toString tree.size
  | entered name => "evaluate: entering let name=" ++ name
  | evaluated (.ok value) => "evaluate: return=" ++ toString value.toInt
  | evaluated (.error e) => "evaluate: error=" ++ e.message
  | failed kind => "evaluation failed kind=" ++ kind.text

/-- The log line of the entry. -/
def line (source : String) (entry : LogEntry) : String := entry.level.name ++ " " ++ entry.text source ++ "\n"

/-- The log lines that are shown at this verbosity. -/
def render (verbosity : Nat) (source : String) (entries : List LogEntry) : String :=
  String.join ((entries.filter (fun entry => entry.level.verbosity ≤ verbosity)).map (line source))

@[simp] theorem render_zero (source : String) (entries : List LogEntry) : render 0 source entries = "" := by
  have none : entries.filter (fun entry => entry.level.verbosity ≤ 0) = [] := by
    refine List.filter_eq_nil_iff.mpr fun entry _ => ?_
    cases entry.level <;> simp [LogLevel.verbosity]
  rw [render, none]
  rfl

end LogEntry
end CommandLine
end LetArith
