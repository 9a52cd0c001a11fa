import LetArith.Proofs.Concatenation

/-!
# LetArith.Proofs.Scanning — calls of the scanner one after another

The scanner can be called as often as one likes, also after an error and at the end of the text.
`Cursor.Takes` says what one call can do: it passes the characters of a token or of a bad literal, it
stays in front of a character that starts no token, or it stays at the end of the text.  All that holds
of a run of calls follows from these three ways.

* `Cursor.takes_scanLexeme`: a call does one of the three.
* `Cursor.nthScan_of_stays`: where the scanner does not move, every call behind it comes to the same.
* `Cursor.nthScan_shift`: the calls on a text that starts in another column come to the same in other
  columns.
* `Cursor.Munches.scans_eq`: the lexemes of a text are what the first calls come to.
* `scanner_progress_and_resumption`: what the columns of a run are, and what is in them.
-/

namespace LetArith

/-! ### One call -/

namespace Scanned

/-- The columns of a token or of an error. -/
def span : Scanned → Span
  | .ok found => found.span
  | .error e => e.span

/-- The scanner has passed what it found: a token, a number that is too large, or a minus sign without
digits. -/
def Passes : Scanned → Prop
  | .ok found => found.token ≠ .endOfInput
  | .error (.integerOverflow _ _) => True
  | .error (.missingDigits _) => True
  | .error (.invalidCharacter _ _) => False

theorem not_passes_iff {result : Scanned} : ¬ result.Passes ↔
    (∃ found, result = .ok found ∧ found.token = .endOfInput) ∨
      ∃ found span, result = .error (.invalidCharacter found span) := by
  cases result with
  | ok found => simp [Passes]
  | error e => cases e <;> simp [Passes]

end Scanned

namespace Cursor

/-- The cursor behind some characters. -/
def drop (count : Nat) (c : Cursor) : Cursor := ⟨c.rest.drop count, c.column + count⟩

theorem drop_drop (c : Cursor) (m n : Nat) : (c.drop m).drop n = c.drop (m + n) := by
  simp only [drop, List.drop_drop, Nat.add_assoc]

theorem skipWhile_eq_drop (p : Char → Bool) (c : Cursor) : c.skipWhile p = c.drop (c.run p).length := by
  have rest : c.rest.drop (c.run p).length = (c.skipWhile p).rest := by
    conv_lhs => rw [← run_append_rest_skipWhile p c]
    exact List.drop_left
  rw [drop, rest]
  rfl

theorem length_run_le (p : Char → Bool) (c : Cursor) : (c.run p).length ≤ c.rest.length :=
  Nat.le.intro (length_rest_skipWhile p c)

theorem length_run_pos {p : Char → Bool} {ch : Char} (h : p ch = true) (rest : List Char) (column : Nat) :
    0 < (run p ⟨ch :: rest, column⟩).length := by
  simp [run, h]

/-- What a call in front of no blank comes to, and where it leads. -/
inductive Takes (c : Cursor) : Scanned → Cursor → Prop
  | passed {result : Scanned} {count : Nat} (pos : 0 < count) (le : count ≤ c.rest.length)
      (passes : result.Passes) (span : result.span = ⟨c.column, c.column + count⟩) :
      Takes c result (c.drop count)
  | refused {found : Char} {behind : List Char} (first : c.rest = found :: behind) :
      Takes c (.error (.invalidCharacter found (.single c.column))) c
  | ended (nothing : c.rest = []) : Takes c (.ok ⟨.endOfInput, ⟨c.column, c.column⟩⟩) c

/-- A number is passed with all its digits, whether it is too large or not. -/
theorem scanInteger_passes (c : Cursor) (start : Nat) (negative : Bool) :
    Scanned.Passes (c.scanInteger start negative).1 ∧
      Scanned.span (c.scanInteger start negative).1 = ⟨start, c.column + (c.run Char.isDigit).length⟩ := by
  unfold scanInteger
  dsimp only
  split
  · exact ⟨Token.noConfusion, rfl⟩
  · exact ⟨trivial, rfl⟩

/-- A call in front of no blank does one of the three. -/
theorem takes_scanLexeme (c : Cursor) : c.Takes c.scanLexeme.1 c.scanLexeme.2 := by
  obtain ⟨rest, column⟩ := c
  cases rest with
  | nil => exact .ended rfl
  | cons ch rest =>
    have next : drop 1 ⟨ch :: rest, column⟩ = ⟨rest, column + 1⟩ := rfl
    have one_le : 1 ≤ (ch :: rest).length := Nat.le_add_left 1 rest.length
    cases way ch with
    | digit h =>
      obtain ⟨passes, span⟩ := scanInteger_passes ⟨ch :: rest, column⟩ column false
      rw [scanLexeme_digit _ _ h, scanInteger_snd, skipWhile_eq_drop]
      exact .passed (length_run_pos h rest column) (length_run_le _ _) passes span
    | sign token h =>
      rw [scanLexeme_punctuation _ _ h, ← next]
      refine .passed Nat.one_pos one_le ?_ rfl
      rcases eq_of_punctuation? h with ⟨-, rfl⟩ | ⟨-, rfl⟩ | ⟨-, rfl⟩ <;> exact Token.noConfusion
    | minus h =>
      subst h
      rw [scanLexeme_minus]
      split
      · -- the sign is passed with the digits, and the span starts in front of it
        obtain ⟨passes, span⟩ := scanInteger_passes ⟨rest, column + 1⟩ column true
        have le := length_run_le Char.isDigit ⟨rest, column + 1⟩
        rw [scanInteger_snd, skipWhile_eq_drop, ← next, drop_drop]
        rw [Nat.add_assoc] at span
        refine .passed (Nat.add_pos_left Nat.one_pos _) ?_ passes span
        rw [Nat.add_comm]
        exact Nat.succ_le_succ le
      · rw [← next]
        exact .passed Nat.one_pos one_le trivial rfl
    | letter h =>
      rw [scanLexeme_letter _ _ h]
      show Takes _ _ (skipWhile continuesWord ⟨ch :: rest, column⟩)
      rw [skipWhile_eq_drop]
      exact .passed (length_run_pos (continuesWord_of_startsWord h) rest column)
        (length_run_le _ _) Token.noConfusion rfl
    | none noDigit noSign noMinus noLetter =>
      rw [scanLexeme_none _ _ noDigit noSign noMinus noLetter]
      exact .refused rfl

namespace Takes

variable {c next : Cursor} {result : Scanned}

theorem start_eq (h : c.Takes result next) : result.span.start = c.column := by
  cases h with
  | passed pos le passes span => rw [span]
  | refused first => rfl
  | ended nothing => rfl

theorem of_passes (h : c.Takes result next) (passes : result.Passes) :
    next.column = result.span.stop ∧ c.column + 1 ≤ next.column := by
  cases h with
  | passed pos le _ span =>
    rw [span]
    exact ⟨rfl, Nat.add_le_add_left pos c.column⟩
  | refused first => exact passes.elim
  | ended nothing => exact absurd rfl passes

theorem eq_of_not_passes (h : c.Takes result next) (stays : ¬ result.Passes) : next = c := by
  cases h with
  | passed pos le passes span => exact absurd passes stays
  | refused first => rfl
  | ended nothing => rfl

theorem exists_drop (h : c.Takes result next) : ∃ count ≤ c.rest.length, next = c.drop count := by
  cases h with
  | @passed result count pos le passes span => exact ⟨count, le, rfl⟩
  | refused first => exact ⟨0, Nat.zero_le _, rfl⟩
  | ended nothing => exact ⟨0, Nat.zero_le _, rfl⟩

theorem of_endOfInput {found : Lexeme} (h : c.Takes (.ok found) next) (last : found.token = .endOfInput) :
    c.rest = [] ∧ found.span = ⟨c.column, c.column⟩ := by
  generalize hr : (.ok found : Scanned) = result at h
  cases h with
  | passed pos le passes span =>
    subst hr
    exact absurd last passes
  | refused first => cases hr
  | ended nothing =>
    cases hr
    exact ⟨nothing, rfl⟩

end Takes

/-- A call skips blanks, and does one of the three behind them. -/
theorem exists_takes_scan (c : Cursor) : ∃ blanks ≤ c.rest.length, (∀ ch ∈ c.rest.take blanks, ch = ' ') ∧
    (c.drop blanks).Takes c.scan.1 c.scan.2 := by
  refine ⟨(c.run isBlank).length, length_run_le isBlank c, ?_, ?_⟩
  · have taken : c.rest.take (c.run isBlank).length = c.run isBlank := by
      conv_lhs => rw [← run_append_rest_skipWhile isBlank c]
      exact List.take_left
    rw [taken]
    exact forall_isBlank_iff.mp (forall_mem_run isBlank c)
  · rw [← skipWhile_eq_drop]
    exact takes_scanLexeme _

/-! ### Many calls -/

/-- The cursor behind some calls of the scanner. -/
def afterScans (c : Cursor) : Nat → Cursor
  | 0 => c
  | n + 1 => (c.afterScans n).scan.2

/-- What a call of the scanner comes to behind `n` others. -/
def nthScan (c : Cursor) (n : Nat) : Scanned := (c.afterScans n).scan.1

/-- What the first `n` calls of the scanner come to. -/
def scans (c : Cursor) (n : Nat) : List Scanned := (List.range n).map c.nthScan

theorem afterScans_add (c : Cursor) (m n : Nat) : c.afterScans (m + n) = (c.afterScans m).afterScans n := by
  induction n with
  | zero => rfl
  | succ n ih => rw [← Nat.add_assoc, afterScans, ih, afterScans]

theorem nthScan_add (c : Cursor) (m n : Nat) : c.nthScan (m + n) = (c.afterScans m).nthScan n := by
  rw [nthScan, afterScans_add, nthScan]

theorem scans_succ (c : Cursor) (n : Nat) : c.scans (n + 1) = c.scan.1 :: c.scan.2.scans n := by
  have others (m : Nat) : c.nthScan (m + 1) = c.scan.2.nthScan m := by
    rw [Nat.add_comm, nthScan_add]
    rfl
  rw [scans, List.range_succ_eq_map, List.map_cons, List.map_map, scans]
  exact congrArg _ (List.map_congr_left fun m _ => others m)

/-- The same characters in other columns come to the same in other columns, call by call. -/
theorem nthScan_shift (columns : Nat) (c : Cursor) (n : Nat) :
    (c.shift columns).nthScan n = Scanned.shift columns (c.nthScan n) := by
  have cursors : (c.shift columns).afterScans n = (c.afterScans n).shift columns := by
    induction n with
    | zero => rfl
    | succ n ih => rw [afterScans, ih, scan_shift, afterScans, Prod.map_snd]
  rw [nthScan, cursors, scan_shift, Prod.map_fst, nthScan]

/-- Where the scanner did not move, the next call comes to the same. -/
theorem scan_of_stays {c : Cursor} (h : ¬ Scanned.Passes c.scan.1) : c.scan.2.scan = c.scan := by
  have stays : c.scan.2 = c.skipWhile isBlank := (takes_scanLexeme (c.skipWhile isBlank)).eq_of_not_passes h
  have twice : (c.skipWhile isBlank).skipWhile isBlank = c.skipWhile isBlank :=
    (run_append (c.skipWhile isBlank).column (List.forall_mem_nil _) (head?_rest_skipWhile isBlank c)).2
  rw [stays, scan, twice, scan]

/-- Where the scanner does not move, all calls come to the same. -/
theorem nthScan_of_stays {c : Cursor} {n : Nat} (h : ¬ (c.nthScan n).Passes) {m : Nat} (le : n ≤ m) :
    c.nthScan m = c.nthScan n := by
  obtain ⟨k, rfl⟩ := Nat.exists_eq_add_of_le le
  have same : (c.afterScans (n + k)).scan = (c.afterScans n).scan := by
    clear le
    induction k with
    | zero => rfl
    | succ k ih => rw [← Nat.add_assoc, afterScans, ih, scan_of_stays h]
  rw [nthScan, same, nthScan]

/-- A run of calls stays in the text. -/
theorem exists_drop_afterScans (c : Cursor) (n : Nat) :
    ∃ count ≤ c.rest.length, c.afterScans n = c.drop count := by
  induction n with
  | zero => exact ⟨0, Nat.zero_le _, rfl⟩
  | succ n ih =>
    obtain ⟨before, le, cursor⟩ := ih
    obtain ⟨blanks, le_blanks, -, takes⟩ := (c.afterScans n).exists_takes_scan
    obtain ⟨count, le_count, next⟩ := takes.exists_drop
    refine ⟨before + blanks + count, ?_, ?_⟩
    · simp only [cursor, drop, List.length_drop] at le_blanks le_count
      omega
    · rw [afterScans, next, cursor, drop_drop, drop_drop, Nat.add_assoc]

/-- The lexemes of a text are what the first calls come to. -/
theorem Munches.scans_eq {c last : Cursor} {lexemes : List Lexeme} (h : c.Munches lexemes last) :
    c.afterScans lexemes.length = last ∧ c.scans lexemes.length = lexemes.map Except.ok := by
  induction lexemes generalizing c with
  | nil =>
    cases h
    exact ⟨rfl, rfl⟩
  | cons found lexemes ih =>
    obtain ⟨next, hs, -, others⟩ := munches_cons_iff.mp h
    obtain ⟨behind, found_eq⟩ := ih others
    rw [List.length_cons, scans_succ, hs, found_eq]
    refine ⟨?_, rfl⟩
    rw [Nat.add_comm, afterScans_add]
    show (c.scan.2).afterScans _ = last
    rw [hs, behind]

theorem Munches.ne_endOfInput {c last : Cursor} {lexemes : List Lexeme} (h : c.Munches lexemes last) :
    ∀ found ∈ lexemes, found.token ≠ .endOfInput := by
  induction lexemes generalizing c with
  | nil => exact List.forall_mem_nil _
  | cons found lexemes ih =>
    obtain ⟨next, -, ht, others⟩ := munches_cons_iff.mp h
    exact List.forall_mem_cons.mpr ⟨ht, ih others⟩

/-- Each lexeme fills a column. -/
theorem Munches.length_le {c last : Cursor} {lexemes : List Lexeme} (h : c.Munches lexemes last) :
    c.column + lexemes.length ≤ last.column := by
  induction lexemes generalizing c with
  | nil =>
    cases h
    exact Nat.le_refl _
  | cons found lexemes ih =>
    obtain ⟨next, hs, ht, others⟩ := munches_cons_iff.mp h
    obtain ⟨blanks, -, -, takes⟩ := c.exists_takes_scan
    rw [hs] at takes
    have step := (takes.of_passes ht).2
    have behind := ih others
    simp only [drop] at step
    simp only [List.length_cons]
    omega

end Cursor

/-! ### The calls on a text -/

namespace Scanner

/-- What call `n` of the scanner on a text comes to, counted from 0. -/
def call (text : String) (n : Nat) : Scanned := (Cursor.ofString text).nthScan n

/-- The column where the scanner on a text stands before call `n`. -/
def column (text : String) (n : Nat) : Nat := ((Cursor.ofString text).afterScans n).column

variable (text : String) (n : Nat)

theorem column_le : column text n ≤ text.length := by
  obtain ⟨count, le, cursor⟩ := (Cursor.ofString text).exists_drop_afterScans n
  rw [column, cursor]
  simpa [Cursor.drop, Cursor.ofString, String.length_toList] using le

theorem afterScans_eq :
    (Cursor.ofString text).afterScans n = ⟨text.toList.drop (column text n), column text n⟩ := by
  obtain ⟨count, -, cursor⟩ := (Cursor.ofString text).exists_drop_afterScans n
  rw [column, cursor]
  simp [Cursor.drop, Cursor.ofString]

/-- A call skips blanks up to the start of its span, and does one of the three there. -/
theorem takes_call : column text n ≤ (call text n).span.start ∧
    (∀ i, column text n ≤ i → i < (call text n).span.start → text.toList[i]? = some ' ') ∧
    Cursor.Takes ⟨text.toList.drop (call text n).span.start, (call text n).span.start⟩ (call text n)
      ((Cursor.ofString text).afterScans (n + 1)) := by
  obtain ⟨blanks, le, separate, takes⟩ := ((Cursor.ofString text).afterScans n).exists_takes_scan
  have cursor := afterScans_eq text n
  have here : ((Cursor.ofString text).afterScans n).drop blanks =
      ⟨text.toList.drop (column text n + blanks), column text n + blanks⟩ := by
    rw [cursor, Cursor.drop, List.drop_drop]
  have start : (call text n).span.start = column text n + blanks := by
    rw [here] at takes
    exact takes.start_eq
  rw [cursor] at le separate
  rw [here] at takes
  refine ⟨by omega, fun i lower upper => ?_, by rw [start]; exact takes⟩
  obtain ⟨k, rfl⟩ := Nat.exists_eq_add_of_le lower
  have inside : k < (text.toList.drop (column text n)).length := by
    have bound : blanks ≤ (text.toList.drop (column text n)).length := le
    omega
  have mem : (text.toList.drop (column text n))[k] ∈ (text.toList.drop (column text n)).take blanks := by
    rw [List.mem_take_iff_getElem]
    exact ⟨k, by omega, rfl⟩
  rw [← List.getElem?_drop, List.getElem?_eq_getElem inside, separate _ mem]

variable {text n}

theorem column_succ_of_passes (h : (call text n).Passes) : column text (n + 1) = (call text n).span.stop ∧
    (call text n).span.start + 1 ≤ column text (n + 1) :=
  (takes_call text n).2.2.of_passes h

theorem column_succ_of_stays (h : ¬ (call text n).Passes) : column text (n + 1) = (call text n).span.start :=
  congrArg Cursor.column ((takes_call text n).2.2.eq_of_not_passes h)

theorem column_le_succ (text : String) (n : Nat) : column text n ≤ column text (n + 1) := by
  have start := (takes_call text n).1
  by_cases h : (call text n).Passes
  · exact Nat.le_trans start (Nat.le_of_lt (column_succ_of_passes h).2)
  · rw [column_succ_of_stays h]
    exact start

theorem column_mono (text : String) : Monotone (column text) := monotone_nat_of_le_succ (column_le_succ text)

/-- Whatever was passed and is no blank is in the columns of a call. -/
theorem exists_call_of_lt_column {i : Nat} (h : i < column text n) (visible : text.toList[i]? ≠ some ' ') :
    ∃ m < n, (call text m).span.start ≤ i ∧ i < (call text m).span.stop := by
  induction n with
  | zero => exact absurd h (Nat.not_lt_zero i)
  | succ n ih =>
    by_cases earlier : i < column text n
    · obtain ⟨m, lt, covers⟩ := ih earlier
      exact ⟨m, Nat.lt_succ_of_lt lt, covers⟩
    · have start : (call text n).span.start ≤ i := by
        by_contra before
        exact visible ((takes_call text n).2.1 i (Nat.le_of_not_lt earlier) (Nat.lt_of_not_le before))
      have passes : (call text n).Passes := by
        by_contra stays
        rw [column_succ_of_stays stays] at h
        omega
      exact ⟨n, Nat.lt_succ_self n, start, (column_succ_of_passes passes).1 ▸ h⟩

theorem span_of_endOfInput {found : Lexeme} (h : call text n = .ok found) (last : found.token = .endOfInput) :
    found.span = ⟨text.length, text.length⟩ := by
  have stays : ¬ (call text n).Passes := by
    rw [h]
    exact fun passes => passes last
  have takes := (takes_call text n).2.2
  rw [h] at takes
  obtain ⟨nothing, span⟩ := takes.of_endOfInput last
  have lower : text.toList.length ≤ (Scanned.span (.ok found)).start := List.drop_eq_nil_iff.mp nothing
  have upper := column_le text (n + 1)
  rw [column_succ_of_stays stays, h] at upper
  rw [String.length_toList] at lower
  rw [span, Nat.le_antisymm upper lower]

/-- Two calls have no column in common, unless they are about the same bad character. -/
theorem eq_of_common_column {m i : Nat} (lt : m < n)
    (first : (call text m).span.start ≤ i ∧ i < (call text m).span.stop)
    (second : (call text n).span.start ≤ i ∧ i < (call text n).span.stop) :
    call text m = call text n ∧ ∃ found span, call text n = .error (.invalidCharacter found span) := by
  by_cases h : (call text m).Passes
  · -- later calls start behind what was passed
    have behind : column text (m + 1) ≤ column text n := column_mono text lt
    have start := (takes_call text n).1
    rw [(column_succ_of_passes h).1] at behind
    omega
  · -- the call stays where it is, and so do all later ones; an end has no columns
    have same : call text n = call text m := Cursor.nthScan_of_stays h (Nat.le_of_lt lt)
    refine ⟨same.symm, ?_⟩
    rw [same]
    rcases Scanned.not_passes_iff.mp h with ⟨found, ended, last⟩ | refused
    · rw [ended, Scanned.span, span_of_endOfInput ended last] at first
      exact absurd first.2 (Nat.not_lt_of_le first.1)
    · exact refused

/-- From any call on, the calls come to what those on the rest of the text come to, in the columns of
the rest. -/
theorem call_add (text : String) (n m : Nat) : call text (n + m) =
    Scanned.shift (column text n) (call (String.ofList (text.toList.drop (column text n))) m) := by
  rw [call, Cursor.nthScan_add, afterScans_eq, call, ← Cursor.nthScan_shift, Cursor.shift, Cursor.ofString,
    String.toList_ofList, Nat.zero_add]

/-- A text is read to its end, or to an error, with no more calls that come to a token than it has
characters. -/
theorem exists_last_call (text : String) : ∃ lexemes : List Lexeme, lexemes.length ≤ text.length ∧
    (Cursor.ofString text).scans lexemes.length = lexemes.map Except.ok ∧
    (∀ found ∈ lexemes, found.token ≠ .endOfInput) ∧
    ((∃ last, call text lexemes.length = .ok last ∧ last.token = .endOfInput ∧ tokenize text = .ok lexemes) ∨
      ∃ e, call text lexemes.length = .error e ∧ tokenize text = .error e) := by
  obtain ⟨lexemes, last, munched, ending⟩ := (Cursor.ofString text).exists_munches
  obtain ⟨cursor, found⟩ := munched.scans_eq
  have short : lexemes.length ≤ column text lexemes.length := by
    have length := munched.length_le
    rw [column, cursor]
    simpa [Cursor.ofString] using length
  refine ⟨lexemes, Nat.le_trans short (column_le text _), found, munched.ne_endOfInput, ?_⟩
  rw [call, Cursor.nthScan, cursor]
  rcases ending with blanks | ⟨e, next, failed⟩
  · left
    have ended := Cursor.scan_of_blanks blanks last.column
    exact ⟨_, congrArg Prod.fst ended, rfl, munched.tokens_eq_ok blanks⟩
  · right
    exact ⟨e, congrArg Prod.fst failed, munched.tokens_eq_error failed⟩

end Scanner

open Scanner

/-- What the scanner does on a text, however often it is called, also behind errors.  In this order: (1)
its column never goes back and never passes the end of the text; (2) between the column before a call
and the span of the call there are blanks only; (3) behind a token, a number that is too large or a
minus sign without digits the column is the end of the span, and has moved; (4) in front of a bad
character it is the start of the span, and all later calls come to the same error; (5) at the end of the
text all later calls come to the same end; (6) from any call on, the calls are those on the rest of the
text, in its columns; (7) what was passed and is no blank is in the span of some call, and (8) of no
two, except the same bad character again.  (9) The text is read in no more calls than it has characters,
and one more, to its end or to its first error. -/
theorem scanner_progress_and_resumption (text : String) :
    (∀ n, column text n ≤ column text (n + 1) ∧ column text n ≤ text.length) ∧
    (∀ n, column text n ≤ (call text n).span.start ∧
      ∀ i, column text n ≤ i → i < (call text n).span.start → text.toList[i]? = some ' ') ∧
    (∀ n, (call text n).Passes →
      column text (n + 1) = (call text n).span.stop ∧ column text n + 1 ≤ column text (n + 1)) ∧
    (∀ n found span, call text n = .error (.invalidCharacter found span) →
      column text (n + 1) = span.start ∧ ∀ m, n ≤ m → call text m = .error (.invalidCharacter found span)) ∧
    (∀ n found, call text n = .ok found → found.token = .endOfInput →
      found.span = ⟨text.length, text.length⟩ ∧ ∀ m, n ≤ m → call text m = .ok found) ∧
    (∀ n m, call text (n + m) =
      Scanned.shift (column text n) (call (String.ofList (text.toList.drop (column text n))) m)) ∧
    (∀ n i, i < column text n → text.toList[i]? ≠ some ' ' →
      ∃ m < n, (call text m).span.start ≤ i ∧ i < (call text m).span.stop) ∧
    (∀ m n i, m < n → (call text m).span.start ≤ i ∧ i < (call text m).span.stop →
      (call text n).span.start ≤ i ∧ i < (call text n).span.stop →
      call text m = call text n ∧ ∃ found span, call text n = .error (.invalidCharacter found span)) ∧
    ∃ lexemes : List Lexeme, lexemes.length ≤ text.length ∧
      (Cursor.ofString text).scans lexemes.length = lexemes.map Except.ok ∧
      (∀ found ∈ lexemes, found.token ≠ .endOfInput) ∧
      ((∃ last, call text lexemes.length = .ok last ∧ last.token = .endOfInput ∧
        tokenize text = .ok lexemes) ∨
        ∃ e, call text lexemes.length = .error e ∧ tokenize text = .error e) := by
  refine ⟨fun n => ⟨column_le_succ text n, column_le text n⟩, fun n => ?_, fun n passes => ?_,
    fun n found span refused => ?_, fun n found ended last => ?_, call_add text,
    fun n i => exists_call_of_lt_column, fun m n i lt => eq_of_common_column lt, exists_last_call text⟩
  · obtain ⟨start, blanks, -⟩ := takes_call text n
    exact ⟨start, blanks⟩
  · obtain ⟨stop, moved⟩ := column_succ_of_passes passes
    exact ⟨stop, Nat.le_trans (Nat.succ_le_succ (takes_call text n).1) moved⟩
  · have stays : ¬ (call text n).Passes := by simp [refused, Scanned.Passes]
    refine ⟨?_, fun m le => ?_⟩
    · rw [column_succ_of_stays stays, refused]
      rfl
    · rw [← refused]
      exact Cursor.nthScan_of_stays stays le
  · have stays : ¬ (call text n).Passes := by simp [ended, Scanned.Passes, last]
    refine ⟨span_of_endOfInput ended last, fun m le => ?_⟩
    rw [← ended]
    exact Cursor.nthScan_of_stays stays le

/-- A number, a minus sign alone and a bad character: behind the minus sign the scanner goes on, before
the bad character it does not.  At its end a text stays read. -/
theorem scanner_progress_loneMinus :
    call "7 -?" 1 = .error (.missingDigits ⟨2, 3⟩) ∧ "7 -?".toList[1]? = some ' ' ∧ column "7 -?" 2 = 3 ∧
      (∃ m < 2, (call "7 -?" m).span.start ≤ 2 ∧ 2 < (call "7 -?" m).span.stop) ∧
      (∀ m, 2 ≤ m → call "7 -?" m = .error (.invalidCharacter '?' ⟨3, 4⟩)) ∧ call "7 -?" 2 = call "7 -?" 5 ∧
      ∀ m, 1 ≤ m → call "7 " m = .ok ⟨.endOfInput, ⟨2, 2⟩⟩ := by
  have minus : call "7 -?" 1 = .error (.missingDigits ⟨2, 3⟩) := by decide +kernel
  have refused : call "7 -?" 2 = .error (.invalidCharacter '?' ⟨3, 4⟩) := by decide +kernel
  have ended : call "7 " 1 = .ok ⟨.endOfInput, ⟨2, 2⟩⟩ := by decide +kernel
  have first : column "7 -?" 1 = 1 := by decide +kernel
  obtain ⟨-, blanks, passes, stuck, -, -, seen, common, -⟩ := scanner_progress_and_resumption "7 -?"
  obtain ⟨-, -, -, -, stays, -⟩ := scanner_progress_and_resumption "7 "
  have blank := (blanks 1).2 1 (by rw [first]) (by rw [minus]; decide)
  have stop := (passes 1 (by rw [minus]; trivial)).1
  rw [minus] at stop
  have again := (stuck 2 _ _ refused).2
  have covers : (call "7 -?" 2).span.start ≤ 3 ∧ 3 < (call "7 -?" 2).span.stop := by
    rw [refused]
    decide
  have later : (call "7 -?" 5).span.start ≤ 3 ∧ 3 < (call "7 -?" 5).span.stop := by
    rw [again 5 (by decide)]
    decide
  exact ⟨minus, blank, stop, seen 2 2 (by rw [stop]; decide) (by decide), again,
    (common 2 5 3 (by decide) covers later).1, (stays 1 _ ended rfl).2⟩

end LetArith
