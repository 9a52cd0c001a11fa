/-!
# LetArith.CommandLine.Flag — the options of the program

The table of options: how each is written, how messages name it, and what the help says about it.  The
help text is laid out from this table, with the descriptions in one column.
-/

namespace LetArith
namespace CommandLine

/-- The name of the program. -/
def programName : String := "calc"

/-- The version of the program. -/
def programVersion : String := "1.0.0"

/-- A shell that the program can write a completion script for. -/
inductive Shell
  | bash
  | elvish
  | fish
  | powershell
  | zsh
  deriving DecidableEq

namespace Shell

/-- Every shell, in the order in which the help lists them. -/
def all : List Shell := [.bash, .elvish, .fish, .powershell, .zsh]

/-- The name by which the shell is asked for. -/
def name : Shell → String
  | bash => "bash"
  | elvish => "elvish"
  | fish => "fish"
  | powershell => "powershell"
  | zsh => "zsh"

/-- The shell of this name, in which case matters. -/
def ofName? (name : String) : Option Shell := all.find? (fun shell => shell.name == name)

end Shell

/-- An option. -/
inductive Flag
  | tokens
  | tree
  | completions
  | verbose
  | help
  | version
  deriving DecidableEq

namespace Flag

/-- Every option, in the order in which the help lists them. -/
def all : List Flag := [.tokens, .tree, .completions, .verbose, .help, .version]

/-- The name after two hyphens. -/
def name : Flag → String
  | tokens => "tokens"
  | tree => "tree"
  | completions => "completions"
  | verbose => "verbose"
  | help => "help"
  | version => "version"

/-- The letter after one hyphen. -/
def letter? : Flag → Option Char
  | verbose => some 'v'
  | help => some 'h'
  | version => some 'V'
  | _ => none

/-- The option of this name. -/
def ofName? (name : String) : Option Flag := all.find? (fun flag => flag.name == name)

/-- The option of this letter. -/
def ofLetter? (letter : Char) : Option Flag := all.find? (fun flag => flag.letter? == some letter)

/-- How messages name the option: with its value, and with dots if it may come more than once. -/
def usage : Flag → String
  | completions => "--completions <SHELL>"
  | verbose => "--verbose..."
  | flag => "--" ++ flag.name

/-- What the help says about the option. -/
def description : Flag → String
  | tokens => "print the scanned tokens instead of evaluating"
  | tree => "print the parsed expression instead of evaluating"
  | completions =>
    "print a completion script for SHELL [possible values: " ++
      ", ".intercalate (Shell.all.map Shell.name) ++ "]"
  | verbose => "log more (repeat for debug and trace output)"
  | help => "Print help"
  | version => "Print version"

/-- The option in the help: its letter, its name, and its description from a fixed column on. -/
def helpLine (flag : Flag) : String :=
  let letter := match flag.letter? with
    | some c => "-" ++ String.singleton c ++ ", "
    | none => "    "
  let gap := String.ofList (List.replicate (completions.usage.length - flag.usage.length) ' ')
  "  " ++ letter ++ flag.usage ++ gap ++ "  " ++ flag.description ++ "\n"

end Flag

/-- The help text. -/
def helpText : String :=
  "Evaluates integer expressions such as 'let(a, 5, add(a, a))'\n\nUsage: " ++ programName ++
    " [OPTIONS] [expression]\n\nArguments:\n  [expression]  expression to evaluate\n\nOptions:\n" ++
    String.join (Flag.all.map Flag.helpLine)

/-- The line that tells the version. -/
def versionText : String := programName ++ " " ++ programVersion ++ "\n"

end CommandLine
end LetArith
