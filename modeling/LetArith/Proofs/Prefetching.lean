import LetArith.Proofs.Scanning

/-!
# LetArith.Proofs.Prefetching — the characters of a text, one after another

A cursor can be asked for the next character, told to pass it, and told to pass a run of characters, in
any order and as often as one likes, also at the end of the text.  Whatever it is asked, the characters
that it passes are those of the text.

Whoever goes through a text only once does not hold what remains of it.  Such a reader fetches one
character in advance, and keeps a flag for the case that there was none to fetch.  It takes a run
character by character, for as long as the flag is down, and nothing but the text makes that end.

* `Cursor.performAll_eq_drop`: the characters that some calls pass are taken from the front of the rest.
* `Cursor.isRun_takeWhile`: a run goes on as long as it can.
* `Prefetch.performAll_atCursor`: a reader that fetches in advance answers as a cursor does.
* `characters_pass_in_order`: what holds of a text after any calls.
-/

namespace LetArith

/-! ### Calls of a cursor -/

namespace Cursor

/-- What a cursor can be asked to do.  `takeWhile` passes the characters that satisfy `p`, up to the
first that does not. -/
inductive Call
  | peek
  | advance
  | takeWhile (p : Char → Bool)

/-- What it answers. -/
inductive Answer
  | char (found : Char)
  | text (taken : String)
  deriving DecidableEq

/-- What is answered at the end of a text. -/
def Call.answerAtEnd : Call → Answer
  | .peek => .char endMark
  | .advance => .char endMark
  | .takeWhile _ => .text ""

/-- One call. -/
def perform (c : Cursor) : Call → Answer × Cursor
  | .peek => (.char c.peek, c)
  | .advance => (.char c.advance.1, c.advance.2)
  | .takeWhile p => (.text (c.takeWhile p).1, (c.takeWhile p).2)

/-- Some calls, one after another. -/
def performAll (c : Cursor) : List Call → List Answer × Cursor
  | [] => ([], c)
  | call :: calls =>
    ((c.perform call).1 :: ((c.perform call).2.performAll calls).1, ((c.perform call).2.performAll calls).2)

/-- The characters that a call passes: the one that `advance` answers before the end of the text, or
those of the run. -/
def passed (c : Cursor) : Call → List Char
  | .peek => []
  | .advance => if c.isAtEnd then [] else [c.advance.1]
  | .takeWhile p => (c.takeWhile p).1.toList

/-- The characters that some calls pass, in order. -/
def passedAll (c : Cursor) : List Call → List Char
  | [] => []
  | call :: calls => c.passed call ++ (c.perform call).2.passedAll calls

/-- A call passes characters from the front of the rest. -/
theorem perform_eq_drop (c : Cursor) (call : Call) :
    c.passed call ++ (c.perform call).2.rest = c.rest ∧
      (c.perform call).2 = c.drop (c.passed call).length := by
  cases call with
  | peek => exact ⟨rfl, rfl⟩
  | advance =>
    obtain ⟨rest, column⟩ := c
    cases rest with
    | nil => exact ⟨rfl, rfl⟩
    | cons ch rest => exact ⟨rfl, rfl⟩
  | takeWhile p =>
    have run : c.passed (.takeWhile p) = c.run p := String.toList_ofList
    rw [run]
    exact ⟨run_append_rest_skipWhile p c, skipWhile_eq_drop p c⟩

/-- So do some calls, by induction on them. -/
theorem performAll_eq_drop (c : Cursor) (calls : List Call) :
    c.passedAll calls ++ (c.performAll calls).2.rest = c.rest ∧
      (c.performAll calls).2 = c.drop (c.passedAll calls).length := by
  induction calls generalizing c with
  | nil => exact ⟨rfl, rfl⟩
  | cons call calls ih =>
    obtain ⟨front, step⟩ := c.perform_eq_drop call
    obtain ⟨back, steps⟩ := ih (c.perform call).2
    simp only [passedAll, performAll]
    refine ⟨by rw [List.append_assoc, back, front], ?_⟩
    rw [List.length_append, ← drop_drop, ← step]
    exact steps

/-- On a text, a cursor stands behind the characters that it has passed. -/
theorem performAll_ofString (text : String) (calls : List Call) : ∃ column ≤ text.toList.length,
    ((ofString text).performAll calls).2 = ⟨text.toList.drop column, column⟩ ∧
      (ofString text).passedAll calls = text.toList.take column := by
  obtain ⟨front, cursor⟩ := (ofString text).performAll_eq_drop calls
  have chars :
      (ofString text).passedAll calls ++ ((ofString text).performAll calls).2.rest = text.toList := front
  refine ⟨((ofString text).passedAll calls).length, ?_, ?_, ?_⟩
  · rw [← chars, List.length_append]
    exact Nat.le_add_right _ _
  · rw [cursor, drop, ofString, Nat.zero_add]
  · conv_rhs => rw [← chars, List.take_left]

theorem perform_at_end {c : Cursor} (h : c.isAtEnd = true) (call : Call) :
    c.perform call = (call.answerAtEnd, c) := by
  obtain ⟨rest, column⟩ := c
  obtain rfl : rest = [] := List.isEmpty_iff.mp h
  cases call with
  | peek => rfl
  | advance => rfl
  | takeWhile p => rfl

/-! ### Runs -/

/-- The characters from column `start` up to column `stop` satisfy `p`, and the one in column `stop`, if
there is one, does not. -/
structure IsRun (chars : List Char) (p : Char → Bool) (start stop : Nat) : Prop where
  le : start ≤ stop
  inside : stop ≤ chars.length
  satisfied : ∀ i, start ≤ i → i < stop → ∃ ch, chars[i]? = some ch ∧ p ch = true
  longest : ∀ ch, chars[stop]? = some ch → p ch = false

/-- What is taken in column `start` is the run from there, and the cursor goes to its end. -/
theorem isRun_takeWhile (chars : List Char) (p : Char → Bool) {start : Nat} (le : start ≤ chars.length) :
    ∃ stop, IsRun chars p start stop ∧ takeWhile p ⟨chars.drop start, start⟩ =
      (String.ofList ((chars.drop start).take (stop - start)), ⟨chars.drop stop, stop⟩) := by
  have whole : run p ⟨chars.drop start, start⟩ ++ _ = chars.drop start := run_append_rest_skipWhile p _
  have moved := skipWhile_eq_drop p ⟨chars.drop start, start⟩
  have length := length_run_le p ⟨chars.drop start, start⟩
  have all := forall_mem_run p ⟨chars.drop start, start⟩
  have stops := head?_rest_skipWhile p ⟨chars.drop start, start⟩
  rw [takeWhile]
  generalize run p ⟨chars.drop start, start⟩ = taken at whole moved length all ⊢
  simp only [drop, List.drop_drop] at moved
  rw [moved] at whole stops ⊢
  simp only [List.length_drop] at length
  refine ⟨start + taken.length,
    ⟨Nat.le_add_right _ _, by omega, fun i lower upper => ?_, fun ch there => ?_⟩, ?_⟩
  · obtain ⟨j, rfl⟩ := Nat.exists_eq_add_of_le lower
    have here : j < taken.length := by omega
    refine ⟨taken[j], ?_, all _ (List.getElem_mem here)⟩
    rw [← List.getElem?_drop, ← whole, List.getElem?_append_left here, List.getElem?_eq_getElem here]
  · exact stops ch (by rwa [List.head?_drop])
  · rw [Nat.add_sub_cancel_left]
    conv_rhs => rw [← whole, List.take_left]

end Cursor

/-! ### A reader that fetches in advance -/

/-- The characters that were not fetched yet, the one that was fetched last, its column, and whether
there was none. -/
structure Prefetch where
  behind : List Char
  next : Char
  position : Nat
  ended : Bool

namespace Prefetch

/-- Fetches one more character. -/
def fetch (r : Prefetch) : Prefetch :=
  match r.behind with
  | [] => { r with next := Cursor.endMark, ended := true }
  | ch :: behind => { r with next := ch, behind := behind }

/-- The reader of a text, with its first character fetched. -/
def ofString (text : String) : Prefetch := fetch ⟨text.toList, Cursor.endMark, 0, false⟩

/-- The character that was fetched, and the reader with the one behind it fetched. -/
def advance (r : Prefetch) : Char × Prefetch :=
  (r.next, if r.ended then r else fetch { r with position := r.position + 1 })

/-- How many characters are left, also the one that was fetched. -/
def left (r : Prefetch) : Nat := if r.ended then 0 else r.behind.length + 1

theorem left_advance_lt {r : Prefetch} (h : r.ended = false) : r.advance.2.left < r.left := by
  obtain ⟨behind, next, position, ended⟩ := r
  obtain rfl : ended = false := h
  cases behind with
  | nil => exact Nat.zero_lt_one
  | cons ch behind => exact Nat.lt_succ_self _

/-- Goes on with a run of which `taken` was taken.  That ends, since the text does. -/
def takeOn (p : Char → Bool) (taken : String) (r : Prefetch) : String × Prefetch :=
  if _more : r.ended = false ∧ p r.next = true then
    takeOn p (taken.push r.advance.1) r.advance.2
  else
    (taken, r)
termination_by r.left
decreasing_by exact left_advance_lt _more.1

/-- One call. -/
def perform (r : Prefetch) : Cursor.Call → Cursor.Answer × Prefetch
  | .peek => (.char r.next, r)
  | .advance => (.char r.advance.1, r.advance.2)
  | .takeWhile p => (.text (takeOn p "" r).1, (takeOn p "" r).2)

/-- Some calls, one after another. -/
def performAll (r : Prefetch) : List Cursor.Call → List Cursor.Answer × Prefetch
  | [] => ([], r)
  | call :: calls =>
    ((r.perform call).1 :: ((r.perform call).2.performAll calls).1, ((r.perform call).2.performAll calls).2)

/-- The reader that stands where a cursor stands. -/
def atCursor (c : Cursor) : Prefetch := fetch ⟨c.rest, Cursor.endMark, c.column, false⟩

theorem position_atCursor (c : Cursor) : (atCursor c).position = c.column := by
  obtain ⟨rest, column⟩ := c
  cases rest <;> rfl

theorem ended_atCursor (c : Cursor) : (atCursor c).ended = c.isAtEnd := by
  obtain ⟨rest, column⟩ := c
  cases rest <;> rfl

theorem next_atCursor (c : Cursor) : (atCursor c).next = c.peek := by
  obtain ⟨rest, column⟩ := c
  cases rest <;> rfl

theorem advance_atCursor (c : Cursor) : (atCursor c).advance = (c.advance.1, atCursor c.advance.2) := by
  obtain ⟨rest, column⟩ := c
  cases rest <;> rfl

/-- By induction on the rest of the text: with each character of a run less of it is left. -/
theorem takeOn_atCursor (p : Char → Bool) (taken : String) (c : Cursor) :
    takeOn p taken (atCursor c) = (taken ++ String.ofList (c.run p), atCursor (c.skipWhile p)) := by
  obtain ⟨rest, column⟩ := c
  induction rest generalizing taken column with
  | nil =>
    rw [takeOn, dif_neg (by simp [ended_atCursor, Cursor.isAtEnd])]
    simp [Cursor.run, Cursor.skipWhile]
  | cons ch rest ih =>
    rw [takeOn, ended_atCursor, next_atCursor, advance_atCursor]
    by_cases h : p ch = true
    · have run : Cursor.run p ⟨ch :: rest, column⟩ = ch :: Cursor.run p ⟨rest, column + 1⟩ := by
        simp [Cursor.run, h]
      have skip : Cursor.skipWhile p ⟨ch :: rest, column⟩ = Cursor.skipWhile p ⟨rest, column + 1⟩ := by
        simp [Cursor.skipWhile, Cursor.run, h, Nat.add_assoc, Nat.add_comm 1]
      have text : taken.push ch ++ String.ofList (Cursor.run p ⟨rest, column + 1⟩) =
          taken ++ String.ofList (ch :: Cursor.run p ⟨rest, column + 1⟩) := String.toList_inj.mp (by simp)
      rw [run, skip, dif_pos ⟨rfl, h⟩, ← text]
      exact ih _ _
    · -- the character is not of the run, and stays the one that was fetched
      rw [dif_neg fun both => h both.2]
      simp [h, Cursor.run, Cursor.skipWhile]

/-- A call of the reader comes to what it comes to at the cursor. -/
theorem perform_atCursor (c : Cursor) (call : Cursor.Call) :
    (atCursor c).perform call = ((c.perform call).1, atCursor (c.perform call).2) := by
  cases call with
  | peek => rw [perform, next_atCursor, Cursor.perform]
  | advance => rw [perform, advance_atCursor, Cursor.perform]
  | takeWhile p =>
    rw [perform, takeOn_atCursor, String.empty_append]
    rfl

theorem performAll_atCursor (c : Cursor) (calls : List Cursor.Call) :
    (atCursor c).performAll calls = ((c.performAll calls).1, atCursor (c.performAll calls).2) := by
  induction calls generalizing c with
  | nil => rfl
  | cons call calls ih => rw [performAll, perform_atCursor, ih, Cursor.performAll]

end Prefetch

/-- A text behind any calls of a cursor on it.  In this order: (1) the characters that the calls passed
are the first ones of the text, as many as the column of the cursor says; (2) the cursor is at the end
exactly in the column behind the last character; (3) it shows the character of its column, or the end
mark; (4) that character can be passed, whichever it is; (5) a run is the longest one from the column
on, whichever characters it is of; (6) at the end every call is answered by the end mark or no text, and
changes nothing.  (7) A reader that fetches in advance comes to an end of all these calls, with the same
answers, and shows the same. -/
theorem characters_pass_in_order (text : String) (calls : List Cursor.Call)
    (answers : List Cursor.Answer) (c : Cursor)
    (asked : (Cursor.ofString text).performAll calls = (answers, c)) :
    ((Cursor.ofString text).passedAll calls = text.toList.take c.column ∧
      ((Cursor.ofString text).passedAll calls).length = c.column) ∧
    (c.isAtEnd = true ↔ c.column = text.length) ∧
    c.peek = text.toList[c.column]?.getD Cursor.endMark ∧
    (∀ ch, text.toList[c.column]? = some ch →
      c.perform .advance = (.char ch, ⟨text.toList.drop (c.column + 1), c.column + 1⟩)) ∧
    (∀ p, ∃ stop, Cursor.IsRun text.toList p c.column stop ∧
      c.perform (.takeWhile p) =
        (.text (String.ofList ((text.toList.drop c.column).take (stop - c.column))),
          ⟨text.toList.drop stop, stop⟩)) ∧
    (c.isAtEnd = true → ∀ call, c.perform call = (call.answerAtEnd, c)) ∧
    ∃ r, (Prefetch.ofString text).performAll calls = (answers, r) ∧ r.position = c.column ∧
      r.ended = c.isAtEnd ∧ r.next = c.peek := by
  obtain ⟨column, le, cursor, passed⟩ := Cursor.performAll_ofString text calls
  have fetched := Prefetch.performAll_atCursor (Cursor.ofString text) calls
  rw [asked] at cursor fetched
  obtain rfl : c = ⟨text.toList.drop column, column⟩ := cursor
  refine ⟨⟨passed, by rw [passed, List.length_take_of_le le]⟩, ?_, ?_, fun ch there => ?_, fun p => ?_,
    Cursor.perform_at_end, ?_⟩
  · rw [Cursor.isAtEnd, List.isEmpty_iff, List.drop_eq_nil_iff, ← String.length_toList]
    exact ⟨Nat.le_antisymm le, Eq.ge⟩
  · rw [Cursor.peek, List.headD_eq_head?_getD, List.head?_drop]
  · obtain ⟨inside, rfl⟩ := List.getElem?_eq_some_iff.mp there
    rw [List.drop_eq_getElem_cons inside]
    rfl
  · obtain ⟨stop, run, taken⟩ := Cursor.isRun_takeWhile text.toList p le
    exact ⟨stop, run, by rw [Cursor.perform, taken]⟩
  · exact ⟨_, fetched, Prefetch.position_atCursor _, Prefetch.ended_atCursor _, Prefetch.next_atCursor _⟩

/-- A digit and the character that is also the end mark are passed, and a blank is ahead.  Of no text,
nothing is passed. -/
theorem characters_pass_in_order_endMark :
    (Cursor.ofString "7\x00 ").passedAll [.peek, .takeWhile Char.isDigit, .advance] = ['7', '\x00'] ∧
    (⟨[' '], 2⟩ : Cursor).perform .advance = (.char ' ', ⟨[], 3⟩) ∧
    (∃ r, (Prefetch.ofString "7\x00 ").performAll [.peek, .takeWhile Char.isDigit, .advance] =
      ([.char '7', .text "7", .char '\x00'], r) ∧ r.position = 2 ∧ r.ended = false ∧ r.next = ' ') ∧
    ∀ call, (⟨[], 0⟩ : Cursor).perform call = (call.answerAtEnd, ⟨[], 0⟩) := by
  have asked : (Cursor.ofString "7\x00 ").performAll [.peek, .takeWhile Char.isDigit, .advance] =
      ([.char '7', .text "7", .char '\x00'], ⟨[' '], 2⟩) := by decide +kernel
  obtain ⟨⟨passed, -⟩, -, -, next, -, -, fetched⟩ := characters_pass_in_order _ _ _ _ asked
  obtain ⟨-, -, -, -, -, ended, -⟩ := characters_pass_in_order "" [] [] ⟨[], 0⟩ rfl
  exact ⟨passed.trans (by decide +kernel), next ' ' (by decide +kernel), fetched, ended rfl⟩

end LetArith
