import LetArith.CommandLine.Reply

/-!
# LetArith.Main — the program
-/

/-- Answers the arguments of the command line. -/
def main (arguments : List String) : IO UInt32 := do
  let reply := LetArith.CommandLine.answer arguments
  IO.print reply.output
  IO.eprint reply.errors
  return reply.code.toUInt32
