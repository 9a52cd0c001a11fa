import LetArith.CommandLine.Reply
import LetArith.Proofs.Diagnostics
import Mathlib.Data.List.Forall2

/-!
# LetArith.Proofs.Replies — what the program answers about an expression

The three modes of the program are three pipelines: tokens, trees, values.  What comes out of the
pipeline is printed as a whole, or it is reported as a whole; the log goes to the error channel and has
no say in it.  A text that gets through a longer pipeline gets through the shorter ones.

* `CommandLine.asks_arguments`: every text can be asked for, in every mode and with every verbosity.
* `CommandLine.Asks.prints`, `CommandLine.Asks.reports`: the program prints what there is to print, or
  it reports what is wrong behind the log.
* `CommandLine.replies_follow_pipelines`: what the program answers in each mode, and from one mode to
  the next.
-/

namespace LetArith
namespace CommandLine

/-! ### Arguments -/

/-- The arguments ask for this expression in this mode, with this verbosity. -/
def Asks (arguments : List String) (mode : Mode) (text : String) (verbosity : Nat) : Prop :=
  Request.ofArguments arguments = .ok (.print mode text verbosity)

/-- The flags that choose the mode. -/
def Mode.flags : Mode → List Flag
  | value => []
  | tree => [.tree]
  | tokens => [.tokens]

/-- Arguments that ask for an expression, however it starts: the flags of the mode, the verbosity letter
by letter, and the expression behind two hyphens. -/
def Mode.arguments (mode : Mode) (text : String) (verbosity : Nat) : List String :=
  mode.flags.map (fun flag => "--" ++ flag.name) ++ (List.replicate verbosity "-v" ++ ["--", text])

namespace Reading

variable {front back : List String} {r s : Reading}

theorem foldlM_take_append (h : front.foldlM take r = .ok s) :
    (front ++ back).foldlM take r = back.foldlM take s := by
  rw [List.foldlM_append, h]
  rfl

theorem foldlM_take_flags (mode : Mode) : (mode.flags.map (fun flag => "--" ++ flag.name)).foldlM take start =
    .ok { start with modes := mode.flags } := by
  cases mode <;> rfl

theorem take_verbose (options : r.optionsEnded = false) (settled : r.pending = .nothing) :
    r.take "-v" = .ok { r with verbosity := r.verbosity + 1 } := by
  obtain ⟨ended, pending, shell, modes, verbosity, expression⟩ := r
  obtain rfl : ended = false := options
  obtain rfl : pending = .nothing := settled
  cases expression <;> rfl

theorem foldlM_take_verbose (options : r.optionsEnded = false) (settled : r.pending = .nothing)
    (count : Nat) :
    (List.replicate count "-v").foldlM take r = .ok { r with verbosity := r.verbosity + count } := by
  induction count with
  | zero => rfl
  | succ count ih =>
    have last : take { r with verbosity := r.verbosity + count } "-v" =
        .ok { r with verbosity := r.verbosity + (count + 1) } := take_verbose options settled
    rw [List.replicate_succ', foldlM_take_append ih, List.foldlM_cons, last]
    rfl

/-- Behind two hyphens anything is an expression. -/
theorem foldlM_take_expression (options : r.optionsEnded = false) (settled : r.pending = .nothing)
    (free : r.expression = none) (text : String) :
    ["--", text].foldlM take r = .ok { r with optionsEnded := true, expression := some text } := by
  obtain ⟨ended, pending, shell, modes, verbosity, expression⟩ := r
  obtain rfl : ended = false := options
  obtain rfl : pending = .nothing := settled
  obtain rfl : expression = none := free
  rfl

end Reading

/-- Every text can be asked for, in every mode and with every verbosity. -/
theorem asks_arguments (mode : Mode) (text : String) (verbosity : Nat) :
    Asks (mode.arguments text verbosity) mode text verbosity := by
  have read : (mode.arguments text verbosity).foldlM Reading.take .start =
      .ok ⟨true, .nothing, none, mode.flags, 0 + verbosity, some text⟩ := by
    rw [Mode.arguments, Reading.foldlM_take_append (Reading.foldlM_take_flags mode),
      Reading.foldlM_take_append (Reading.foldlM_take_verbose rfl rfl verbosity),
      Reading.foldlM_take_expression rfl rfl rfl]
    rfl
  rw [Asks, Request.ofArguments, read, Nat.zero_add]
  cases mode <;> simp [Mode.flags, bind, Except.bind, Reading.settle, Reading.request, Reading.asksForMore]

/-! ### Listings -/

/-- What a listing calls a token of a text. -/
inductive Listed : Token → String → Prop
  | integer (value : Int32) : Listed (.integer value) ("Integer(" ++ toString value.toInt ++ ")")
  | word (text : String) : Listed (.word text) ("Keyword(\"" ++ text ++ "\")")
  | openParen : Listed .openParen "ParenLeft"
  | closeParen : Listed .closeParen "ParenRight"
  | comma : Listed .comma "Comma"

/-- The line of a listing about a lexeme: where it starts, line and column counted from 1, and what it
is called.  The line feed at its end is the only one. -/
structure ListingLine (lexeme : Lexeme) (line : String) : Prop where
  text_eq : ∃ name, Listed lexeme.token name ∧
    line = "1:" ++ toString (lexeme.span.start + 1) ++ ": " ++ name ++ "\n"
  lineBreaks_eq : Text.lineBreaks line = 1

theorem Listed.eq_description {token : Token} {name : String} (h : Listed token name) :
    name = token.description := by
  cases h <;> rfl

theorem listed_description {token : Token} (inner : token ≠ .endOfInput) :
    Listed token token.description := by
  cases token with
  | integer value => exact .integer value
  | word text => exact .word text
  | openParen => exact .openParen
  | closeParen => exact .closeParen
  | comma => exact .comma
  | endOfInput => exact absurd rfl inner

theorem printable_description {token : Token} (isName : ∀ text, token = .word text → Token.IsName text) :
    Text.Printable token.description := by
  unfold Token.description
  cases token with
  | integer value =>
    simp only [Text.printable_append]
    exact ⟨⟨by decide, printable_toInt value⟩, by decide⟩
  | word text =>
    have name : Text.Printable text := (Token.Spells.word (isName text rfl)).printable
    simp only [Text.printable_append]
    exact ⟨⟨by decide, name⟩, by decide⟩
  | openParen | closeParen | comma | endOfInput =>
    dsimp only
    decide

/-- There is no other line about a lexeme. -/
theorem ListingLine.eq_tokenLine {lexeme : Lexeme} {line : String} (h : ListingLine lexeme line) :
    line = tokenLine lexeme := by
  obtain ⟨⟨name, listed, rfl⟩, -⟩ := h
  rw [listed.eq_description]
  rfl

theorem listingLine_tokenLine {text : String} {lexemes : List Lexeme} {lexeme : Lexeme}
    (scanned : tokenize text = .ok lexemes) (found : lexeme ∈ lexemes) :
    ListingLine lexeme (tokenLine lexeme) := by
  have inner := (Lookahead.tokens_eq_ok_iff.mp scanned).1 lexeme found
  refine ⟨⟨_, listed_description inner, rfl⟩, ?_⟩
  -- only the word of a token is not fixed, and it is a name
  have name : ∀ word, lexeme.token = .word word → Token.IsName word := fun word same =>
    Cursor.isName_of_mem_tokens scanned (same ▸ List.mem_map_of_mem found)
  have before : Text.Printable (lexeme.span.text ++ ": " ++ lexeme.token.description) := by
    simp only [Text.printable_append]
    exact ⟨⟨lexeme.span.printable_text, by decide⟩, printable_description name⟩
  rw [tokenLine, Text.lineBreaks_append, before.lineBreaks_eq_zero]
  rfl

/-- So the lines of a listing are these, in order. -/
theorem forall₂_listingLine_iff {text : String} {lexemes : List Lexeme} {lines : List String}
    (scanned : tokenize text = .ok lexemes) :
    List.Forall₂ ListingLine lexemes lines ↔ lines = lexemes.map tokenLine := by
  constructor
  · intro h
    clear scanned
    induction h with
    | nil => rfl
    | cons line others ih => rw [line.eq_tokenLine, ih, List.map_cons]
  · rintro rfl
    exact List.forall₂_map_right_iff.mpr (List.forall₂_same.mpr fun lexeme => listingLine_tokenLine scanned)

/-! ### Results -/

/-- What there is to print about an expression, or why there is nothing. -/
def Mode.result (mode : Mode) (text : String) : Except Failure String :=
  match mode with
  | .value => (calculate text).map fun v => toString v.toInt ++ "\n"
  | .tree => ((Expr.parse text).mapError Failure.parse).map fun e => e.text ++ "\n"
  | .tokens => ((tokenize text).mapError fun e => Failure.parse (.lexical e)).map fun lexemes =>
      String.join (lexemes.map tokenLine)

theorem readLogged_fst (text : String) : (readLogged text).1 = Expr.parse text := by
  rw [readLogged, Expr.parse]
  dsimp only
  split <;> simp_all

/-- The log does not change the result. -/
theorem perform_fst (mode : Mode) (text : String) : (mode.perform text).1 = mode.result text := by
  have read := readLogged_fst text
  cases mode with
  | value =>
    rw [Mode.perform, Mode.result, calculate, ← read]
    obtain ⟨result, log⟩ := readLogged text
    cases result with
    | error e => rfl
    | ok e =>
      have value : (computeLogged e).1 = e.evaluate := rfl
      dsimp only
      rw [← value]
      obtain ⟨result, more⟩ := computeLogged e
      cases result <;> rfl
  | tree =>
    rw [Mode.perform, Mode.result, ← read]
    obtain ⟨result, log⟩ := readLogged text
    cases result <;> rfl
  | tokens =>
    rw [Mode.perform, Mode.result]
    cases tokenize text <;> rfl

/-! ### Replies -/

/-- The program succeeds: it prints the output, and tells nothing but its log. -/
structure Reply.Prints (r : Reply) (verbosity : Nat) (text output : String) : Prop where
  code_eq : r.code = 0
  output_eq : r.output = output
  errors_eq : ∃ log, r.errors = LogEntry.render verbosity text log

/-- The program fails: it prints nothing, and tells its log and then the report. -/
structure Reply.Reports (r : Reply) (verbosity : Nat) (text : String) (failure : Failure) : Prop where
  code_eq : r.code = 1
  output_eq : r.output = ""
  errors_eq : ∃ log, r.errors = LogEntry.render verbosity text log ++ failure.report text

/-- Without a log there is just the report. -/
theorem Reply.Reports.errors_eq_report {r : Reply} {text : String} {failure : Failure}
    (h : r.Reports 0 text failure) :
    r.errors = failure.report text := by
  obtain ⟨log, errors⟩ := h.errors_eq
  rw [errors, LogEntry.render_zero, String.empty_append]

section

variable {arguments : List String} {mode : Mode} {text output : String} {verbosity : Nat} {failure : Failure}

theorem Asks.answer_eq (asks : Asks arguments mode text verbosity) :
    answer arguments = (Request.print mode text verbosity).reply := by
  rw [answer, asks]

/-- What there is to print is printed. -/
theorem Asks.prints (asks : Asks arguments mode text verbosity) (h : mode.result text = .ok output) :
    (answer arguments).Prints verbosity text output := by
  have first : (mode.perform text).1 = .ok output := (perform_fst mode text).trans h
  cases hp : mode.perform text with
  | mk result log =>
    obtain rfl : result = .ok output := by rwa [hp] at first
    rw [asks.answer_eq, Request.reply, hp]
    exact ⟨rfl, rfl, log, rfl⟩

/-- What is wrong is reported behind the log. -/
theorem Asks.reports (asks : Asks arguments mode text verbosity) (h : mode.result text = .error failure) :
    (answer arguments).Reports verbosity text failure := by
  have first : (mode.perform text).1 = .error failure := (perform_fst mode text).trans h
  cases hp : mode.perform text with
  | mk result log =>
    obtain rfl : result = .error failure := by rwa [hp] at first
    rw [asks.answer_eq, Request.reply, hp]
    exact ⟨rfl, rfl, _, rfl⟩

/-- The program succeeds exactly if there is something to print. -/
theorem Asks.code_eq_zero_iff (asks : Asks arguments mode text verbosity) :
    (answer arguments).code = 0 ↔ ∃ output, mode.result text = .ok output := by
  cases h : mode.result text with
  | ok output => exact iff_of_true (asks.prints h).code_eq ⟨output, rfl⟩
  | error failure => simp [(asks.reports h).code_eq]

/-- Only a text that is read as a tree has a value. -/
theorem result_tree_of_value (h : Mode.value.result text = .ok output) :
    ∃ tree, Mode.tree.result text = .ok tree := by
  cases read : Expr.parse text with
  | error e => simp [Mode.result, calculate, read, Except.map] at h
  | ok e => exact ⟨e.text ++ "\n", by simp [Mode.result, read, Except.map, Except.mapError]⟩

/-- Only a text that has tokens is read as a tree. -/
theorem result_tokens_of_tree (h : Mode.tree.result text = .ok output) :
    ∃ listing, Mode.tokens.result text = .ok listing := by
  cases read : Expr.parse text with
  | error e => simp [Mode.result, read, Except.map, Except.mapError] at h
  | ok e =>
    obtain ⟨lexemes, ht, -⟩ := Expr.parse_eq_ok_iff.mp read
    exact ⟨String.join (lexemes.map tokenLine), by simp [Mode.result, ht, Except.map, Except.mapError]⟩

/-- A text that is not read as a tree has no value, for the same reason. -/
theorem result_value_of_tree (h : Mode.tree.result text = .error failure) :
    Mode.value.result text = .error failure := by
  cases read : Expr.parse text with
  | error e => simpa [Mode.result, calculate, read, Except.map, Except.mapError] using h
  | ok e => simp [Mode.result, read, Except.map, Except.mapError] at h

end

/-- What the program answers about an expression, whatever it is and however much is logged.  In this
order: (1) it can be asked for anything; (2) asked for the value, (3) for the tree, (4) for the tokens,
it prints what there is, of the tokens one line for each in order, or it prints nothing and reports what
is wrong behind the log; (5) the verbosity has no say in the exit code and in the output, and (6)
without it there is no log; (7) a text with a value has a tree, and one with a tree has tokens; (8) a
text without a tree has no value, and the report says the same. -/
theorem replies_follow_pipelines :
    (∀ mode text verbosity, Asks (Mode.arguments mode text verbosity) mode text verbosity) ∧
    (∀ arguments text verbosity, Asks arguments .value text verbosity →
      (∀ v, calculate text = .ok v → (answer arguments).Prints verbosity text (toString v.toInt ++ "\n")) ∧
      ∀ failure, calculate text = .error failure → (answer arguments).Reports verbosity text failure) ∧
    (∀ arguments text verbosity, Asks arguments .tree text verbosity →
      (∀ e, Expr.parse text = .ok e → (answer arguments).Prints verbosity text (e.text ++ "\n")) ∧
      ∀ err, Expr.parse text = .error err → (answer arguments).Reports verbosity text (.parse err)) ∧
    (∀ arguments text verbosity, Asks arguments .tokens text verbosity →
      (∀ lexemes, tokenize text = .ok lexemes → ∃ lines, List.Forall₂ ListingLine lexemes lines ∧
        (answer arguments).Prints verbosity text (String.join lines)) ∧
      ∀ e, tokenize text = .error e → (answer arguments).Reports verbosity text (.parse (.lexical e))) ∧
    (∀ mode text quiet loud v w, Asks quiet mode text v → Asks loud mode text w →
      (answer quiet).code = (answer loud).code ∧ (answer quiet).output = (answer loud).output) ∧
    (∀ mode text quiet, Asks quiet mode text 0 →
      ((answer quiet).code = 0 → (answer quiet).errors = "") ∧
      ∀ failure, (answer quiet).Reports 0 text failure → (answer quiet).errors = failure.report text) ∧
    (∀ text value tree tokens u v w, Asks value .value text u → Asks tree .tree text v →
      Asks tokens .tokens text w →
      ((answer value).code = 0 → (answer tree).code = 0) ∧
      ((answer tree).code = 0 → (answer tokens).code = 0)) ∧
    ∀ text value tree u v, Asks value .value text u → Asks tree .tree text v → (answer tree).code ≠ 0 →
      ∃ failure, (answer tree).Reports v text failure ∧ (answer value).Reports u text failure := by
  refine ⟨asks_arguments, fun arguments text verbosity asks => ?_, fun arguments text verbosity asks => ?_,
    fun arguments text verbosity asks => ?_, fun mode text quiet loud v w asks asks' => ?_,
    fun mode text quiet asks => ?_, fun text value tree tokens u v w asks asks' asks'' => ?_,
    fun text value tree u v asks asks' failed => ?_⟩
  · exact ⟨fun v h => asks.prints (by rw [Mode.result, h]; rfl),
      fun f h => asks.reports (by rw [Mode.result, h]; rfl)⟩
  · exact ⟨fun e h => asks.prints (by rw [Mode.result, h]; rfl),
      fun e h => asks.reports (by rw [Mode.result, h]; rfl)⟩
  · refine ⟨fun l h => ⟨l.map tokenLine, (forall₂_listingLine_iff h).mpr rfl, ?_⟩, fun e h => ?_⟩
    · exact asks.prints (by rw [Mode.result, h]; rfl)
    · exact asks.reports (by rw [Mode.result, h]; rfl)
  · rw [asks.answer_eq, asks'.answer_eq]
    exact Request.reply_print mode text v w
  · refine ⟨fun h => ?_, fun f h => h.errors_eq_report⟩
    obtain ⟨output, result⟩ := asks.code_eq_zero_iff.mp h
    obtain ⟨log, errors⟩ := (asks.prints result).errors_eq
    rw [errors, LogEntry.render_zero]
  · rw [asks.code_eq_zero_iff, asks'.code_eq_zero_iff, asks''.code_eq_zero_iff]
    exact ⟨fun ⟨output, h⟩ => result_tree_of_value h, fun ⟨output, h⟩ => result_tokens_of_tree h⟩
  · cases h : Mode.tree.result text with
    | ok output => exact absurd (asks'.prints h).code_eq failed
    | error failure => exact ⟨failure, asks'.reports h, asks.reports (result_value_of_tree h)⟩

/-- A division by zero has a tree and tokens, but no value.  An expression that breaks off has no tree,
and so no value either.  Of tokens in front of a bad character nothing is printed. -/
theorem replies_follow_pipelines_divisionByZero :
    (answer ["-v", "--", "div(1,0)"]).Reports 1 "div(1,0)" (.arithmetic (.divisionByZero 1)) ∧
      (answer ["--", "div(1,0)"]).errors = "arithmetic: division by zero in div(1, 0)\n" ∧
      (answer ["--tree", "--", "div(1,0)"]).Prints 0 "div(1,0)" "div(1, 0)\n" ∧
      (answer ["--tokens", "--", "div(1,0)"]).code = 0 ∧
      (answer ["--tokens", "--", "div(1,0)"]).Prints 0 "div(1,0)"
        ("1:1: Keyword(\"div\")\n1:4: ParenLeft\n" ++
          "1:5: Integer(1)\n1:6: Comma\n1:7: Integer(0)\n1:8: ParenRight\n") ∧
      (answer ["--tokens", "--", "div(?"]).Reports 0 "div(?"
        (.parse (.lexical (.invalidCharacter '?' ⟨4, 5⟩))) ∧
      ∃ failure, (answer ["--tree", "--", "add("]).Reports 0 "add(" failure ∧
        (answer ["-v", "--", "add("]).Reports 1 "add(" failure := by
  obtain ⟨asks, values, trees, tokens, -, quiet, shorter, alike⟩ := replies_follow_pipelines
  have read : Expr.parse "div(1,0)" = .ok (.binary .div (.integer 1) (.integer 0)) := by decide +kernel
  have failed : calculate "div(1,0)" = .error (.arithmetic (.divisionByZero 1)) := by
    rw [calculate, read]
    dsimp only
    rw [Expr.evaluate_eq_value]
    rfl
  have scanned : tokenize "div(1,0)" = .ok [⟨.word "div", ⟨0, 3⟩⟩, ⟨.openParen, ⟨3, 4⟩⟩, ⟨.integer 1, ⟨4, 5⟩⟩,
      ⟨.comma, ⟨5, 6⟩⟩, ⟨.integer 0, ⟨6, 7⟩⟩, ⟨.closeParen, ⟨7, 8⟩⟩] := by decide +kernel
  have refused : Expr.parse "add(" = .error (.invalidOperand ⟨.endOfInput, ⟨4, 4⟩⟩) := by decide +kernel
  have bad : tokenize "div(?" = .error (.invalidCharacter '?' ⟨4, 5⟩) := by decide +kernel
  have loud := (values _ _ _ (asks .value "div(1,0)" 1)).2 _ failed
  have alone := (quiet _ _ _ (asks .value "div(1,0)" 0)).2 _
    ((values _ _ _ (asks .value "div(1,0)" 0)).2 _ failed)
  have printed := (trees _ _ _ (asks .tree "div(1,0)" 0)).1 _ read
  have success := (shorter _ _ _ _ _ _ _ (asks .value "div(1,0)" 0) (asks .tree "div(1,0)" 0)
    (asks .tokens "div(1,0)" 0)).2 printed.code_eq
  obtain ⟨lines, listed, listing⟩ := (tokens _ _ _ (asks .tokens "div(1,0)" 0)).1 _ scanned
  rw [(forall₂_listingLine_iff scanned).mp listed] at listing
  have unlisted := (tokens _ _ _ (asks .tokens "div(?" 0)).2 _ bad
  have broken := ((trees _ _ _ (asks .tree "add(" 0)).2 _ refused).code_eq
  have both := alike _ _ _ _ _ (asks .value "add(" 1) (asks .tree "add(" 0) (by rw [broken]; decide)
  exact ⟨loud, alone, printed, success, listing, unlisted, both⟩

end CommandLine
end LetArith
