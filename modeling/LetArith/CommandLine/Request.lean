import LetArith.CommandLine.Flag
import LetArith.Text.Visible

/-!
# LetArith.CommandLine.Request — what the arguments ask for

Arguments are read from left to right.  A hyphen starts options as long as no `--` came before.  What
looks like an option but is none is a value while the expression is still missing, so that `-5` and
`--x` can be expressions.  The value of `--completions` may follow as an argument of its own; it is
looked at as soon as something else is met.

* Help and version are granted where they are asked for, whatever comes behind.
* Without any argument that says something, the help is shown unasked.
* A usage error quotes what was typed without its control characters, so that it cannot steer the
  terminal.
-/

namespace LetArith
namespace CommandLine

/-- What is printed about an expression. -/
inductive Mode
  | value
  | tree
  | tokens
  deriving DecidableEq

/-- What the program is asked to do. -/
inductive Request
  | print (mode : Mode) (expression : String) (verbosity : Nat)
  | completion (shell : Shell)
  | help
  | helpUnasked
  | version
  deriving DecidableEq

/-- Why the arguments make no sense. -/
inductive UsageError
  | unexpectedArgument (argument : String)
  | unexpectedValue (value : String) (flag : Flag)
  | repeated (flag : Flag)
  | missingShell
  | invalidShell (value : String)
  | notAlone
  | conflict (first second : Flag)
  | missingExpression
  deriving DecidableEq

namespace UsageError

/-- What was typed, in quotes and without control characters. -/
def quoted (typed : String) : String := "'" ++ Text.visible typed ++ "'"

/-- What is wrong with the arguments. -/
def message : UsageError → String
  | unexpectedArgument argument => "error: unexpected argument " ++ quoted argument ++ " found"
  | unexpectedValue value flag =>
    "error: unexpected value " ++ quoted value ++ " for '" ++ flag.usage ++ "' found; no more were expected"
  | repeated flag => "error: the argument '" ++ flag.usage ++ "' cannot be used multiple times"
  | missingShell => "error: a value is required for '" ++ Flag.completions.usage ++ "' but none was supplied"
  | invalidShell value => "error: invalid value " ++ quoted value ++ " for '" ++ Flag.completions.usage ++ "'"
  | notAlone =>
    "error: the argument '" ++ Flag.completions.usage ++
      "' cannot be used with one or more of the other specified arguments"
  | conflict first second =>
    "error: the argument '" ++ first.usage ++ "' cannot be used with '" ++ second.usage ++ "'"
  | missingExpression => "error: the following required arguments were not provided:"

/-- The message as one line: a line break in what was typed ends it, if the message shows it. -/
def line (e : UsageError) : String := String.ofList (e.message.toList.takeWhile (· != '\n'))

end UsageError

/-- Why reading stops early. -/
inductive Stop
  | granted (request : Request)
  | refused (error : UsageError)

/-- A `--completions` whose value has not been looked at. -/
inductive Pending
  | nothing
  | awaiting
  | given (value : String)
  deriving DecidableEq

/-- What the arguments so far have said. -/
structure Reading where
  optionsEnded : Bool
  pending : Pending
  shell : Option Shell
  modes : List Flag
  verbosity : Nat
  expression : Option String

namespace Reading

/-- Nothing has been said. -/
def start : Reading := ⟨false, .nothing, none, [], 0, none⟩

/-- Takes the value of `--completions`. -/
def takeShell (r : Reading) (value : String) : Except Stop Reading :=
  if r.shell.isSome then .error (.refused (.repeated .completions))
  else
    match Shell.ofName? value with
    | some shell => .ok { r with pending := .nothing, shell := some shell }
    | none => .error (.refused (if value = "" then .missingShell else .invalidShell value))

/-- Looks at the pending value, if there is one. -/
def settle (r : Reading) : Except Stop Reading :=
  match r.pending with
  | .nothing => .ok r
  | .awaiting => .error (.refused .missingShell)
  | .given value => r.takeShell value

/-- Takes an option without a value. -/
def takeFlag (r : Reading) (flag : Flag) : Except Stop Reading := do
  -- what is wrong with a pending value comes before what is wrong with the option
  let r ← r.settle
  match flag with
  | .tokens | .tree =>
    if flag ∈ r.modes then .error (.refused (.repeated flag)) else .ok { r with modes := r.modes ++ [flag] }
  | .completions => .ok { r with pending := .awaiting }
  | .verbose => .ok { r with verbosity := r.verbosity + 1 }
  | .help => .error (.granted .help)
  | .version => .error (.granted .version)

/-- Takes the expression. -/
def takeExpression (r : Reading) (argument : String) : Except Stop Reading :=
  match r.expression with
  | some _ => .error (.refused (.unexpectedArgument argument))
  | none => do
    let r ← r.settle
    .ok { r with expression := some argument }

/-- Takes an argument that is no option: the value that `--completions` waits for, or the expression. -/
def takeValue (r : Reading) (argument : String) : Except Stop Reading :=
  match r.pending with
  | .awaiting => .ok { r with pending := .given argument }
  | _ => r.takeExpression argument

/-- Takes an argument that starts with two hyphens: its name, and the value behind the first equals sign. -/
def takeLong (r : Reading) (argument name : String) (value? : Option String) : Except Stop Reading :=
  match Flag.ofName? name, value? with
  | some flag, none => r.takeFlag flag
  | some .completions, some value => do (← r.settle).takeShell value
  | some flag, some value => .error (.refused (.unexpectedValue value flag))
  | none, _ =>
    if r.expression.isNone then r.takeValue argument
    else .error (.refused (.unexpectedArgument ("--" ++ name)))

/-- Takes one letter of an argument that starts with one hyphen. -/
def takeLetter (r : Reading) (letter : Char) : Except Stop Reading :=
  match Flag.ofLetter? letter with
  | some flag => r.takeFlag flag
  | none => .error (.refused (.unexpectedArgument ("-" ++ String.singleton letter)))

/-- Takes the letters of an argument that starts with one hyphen. -/
def takeLetters (r : Reading) (argument : String) (letters : List Char) : Except Stop Reading :=
  if r.expression.isNone && letters.any (fun letter => (Flag.ofLetter? letter).isNone) then
    r.takeValue argument
  else letters.foldlM takeLetter r

/-- Takes an argument. -/
def take (r : Reading) (argument : String) : Except Stop Reading :=
  if r.optionsEnded then r.takeExpression argument
  else
    match argument.toList with
    | ['-', '-'] => .ok { r with optionsEnded := true }
    | '-' :: '-' :: text =>
      let name := String.ofList (text.takeWhile (· != '='))
      match text.dropWhile (· != '=') with
      | [] => r.takeLong argument name none
      | _ :: value => r.takeLong argument name (some (String.ofList value))
    | '-' :: letter :: letters => r.takeLetters argument (letter :: letters)
    | _ => r.takeValue argument

/-- Something was asked for besides a completion script. -/
def asksForMore (r : Reading) : Bool := !r.modes.isEmpty || r.verbosity != 0 || r.expression.isSome

/-- What all arguments together ask for, once none is pending. -/
def request (r : Reading) : Except UsageError Request :=
  match r.shell with
  | some shell => if r.asksForMore then .error .notAlone else .ok (.completion shell)
  | none =>
    if r.asksForMore then
      match r.modes, r.expression with
      | first :: second :: _, _ => .error (.conflict first second)
      | _, none => .error .missingExpression
      | [], some e => .ok (.print .value e r.verbosity)
      | [.tokens], some e => .ok (.print .tokens e r.verbosity)
      | [_], some e => .ok (.print .tree e r.verbosity)
    else .ok .helpUnasked

end Reading

/-- What the arguments ask for. -/
def Request.ofArguments (arguments : List String) : Except UsageError Request :=
  match arguments.foldlM Reading.take Reading.start >>= Reading.settle with
  | .ok r => r.request
  | .error (.granted request) => .ok request
  | .error (.refused e) => .error e

end CommandLine
end LetArith
