import LetArith.Span
import LetArith.Keyword
import LetArith.Text.Cursor
import LetArith.Text.Escape
import LetArith.Token
import LetArith.Token.Scan
import LetArith.Token.Lookahead
import LetArith.Expr.Same
import LetArith.Failure
import LetArith.Main
import LetArith.Proofs.Grammar
import LetArith.Proofs.Spelling
import LetArith.Proofs.Reading
import LetArith.Proofs.Parsing
import LetArith.Proofs.Printing
import LetArith.Proofs.Language
import LetArith.Proofs.StackMachine
import LetArith.Proofs.Environment
import LetArith.Proofs.RoundTrip
import LetArith.Proofs.ExactArithmetic
import LetArith.Proofs.MaximalMunch
import LetArith.Proofs.Agenda
import LetArith.Proofs.Viability
import LetArith.Proofs.Refusing
import LetArith.Proofs.Stopping
import LetArith.Proofs.FirstError
import LetArith.Proofs.Precedence
import LetArith.Proofs.Location
import LetArith.Proofs.Renaming
import LetArith.Proofs.Path
import LetArith.Proofs.Calls
import LetArith.Proofs.Sharing
import LetArith.Proofs.Concatenation
import LetArith.Proofs.Scanning
import LetArith.Proofs.Buffering
import LetArith.Proofs.Replies
import LetArith.Proofs.Recording
import LetArith.Proofs.Diagnostics
import LetArith.Proofs.Size
import LetArith.Proofs.Persistence
import LetArith.Proofs.Counting
import LetArith.Proofs.Depth
import LetArith.Proofs.Prefetching
