import LetArith.CommandLine.Flag

/-!
# LetArith.CommandLine.Completion — completion scripts

For each shell a script that offers the options of the program, written from the table of options.
-/

namespace LetArith
namespace CommandLine

/-- The options as they are typed: every name, and every letter. -/
def Flag.spellings : List String :=
  Flag.all.map (fun flag => "--" ++ flag.name) ++
    Flag.all.filterMap (fun flag => flag.letter?.map (fun letter => "-" ++ String.singleton letter))

/-- The text between braces. -/
def braced (text : String) : String := "\x7b" ++ text ++ "\x7d"

namespace Shell

/-- The script that makes the shell complete the options of the program. -/
def completionScript : Shell → String
  | bash =>
    "_" ++ programName ++ "() " ++
      braced ("\n    COMPREPLY=($(compgen -W '" ++ " ".intercalate Flag.spellings ++ "' -- \"$" ++
        braced "COMP_WORDS[COMP_CWORD]" ++ "\"))\n") ++
      "\ncomplete -F _" ++ programName ++ " " ++ programName ++ "\n"
  | elvish =>
    "set edit:completion:arg-completer[" ++ programName ++ "] = " ++
      braced ("|@words|\n    put " ++ " ".intercalate Flag.spellings ++ "\n") ++ "\n"
  | fish =>
    String.join (Flag.all.map fun flag =>
      let short := match flag.letter? with
        | some letter => " -s " ++ String.singleton letter
        | none => ""
      "complete -c " ++ programName ++ short ++ " -l " ++ flag.name ++ " -d '" ++ flag.description ++ "'\n")
  | powershell =>
    "Register-ArgumentCompleter -Native -CommandName '" ++ programName ++ "' -ScriptBlock " ++
      braced ("\n    param($word)\n    @('" ++ "', '".intercalate Flag.spellings ++ "') | Where-Object " ++
        braced " $_ -like \"$word*\" " ++ "\n") ++ "\n"
  | zsh =>
    "#compdef " ++ programName ++ "\n_arguments" ++
      String.join (Flag.spellings.map fun spelling => " '" ++ spelling ++ "'") ++ " '*:expression:'\n"

end Shell
end CommandLine
end LetArith
