/-!
# LetArith.Text.Visible — text without control characters

A message that quotes what somebody typed must not steer the terminal.  Control characters are left out
of it, and with them the control functions that an escape character starts: escape sequences, control
sequences, device control strings, operating system commands, and the other strings.  Of the control
characters only the blanks stay: tab, line feed, form feed and carriage return.  Characters outside
ASCII are text.

Inside a control function nothing is text.  Two rules say when it is over.

* An escape character or a cancel character ends every control function; the former starts a new one.
* A blank inside an escape sequence or a control sequence is shown, and what follows it is shown as
  well; only the next character that is not shown goes on with the sequence, unless a character outside
  ASCII came first.
-/

namespace LetArith.Text

/-- A control character that moves the cursor and nothing else. -/
def isControlBlank (c : Char) : Bool := c == '\t' || c == '\n' || c == '\x0c' || c == '\r'

/-- A character that is shown where it is text: every one but the control characters of ASCII that are
no blanks. -/
def isShown (c : Char) : Bool := (0x20 ≤ c.toNat && c.toNat != 0x7f) || isControlBlank c

/-- The control function that has begun and is not over. -/
inductive Control
  | none
  | escape
  | escapeMiddle
  | sequence
  | device
  | deviceParameter
  | deviceMiddle
  | string
  | command
  deriving DecidableEq

namespace Control

/-- The one-byte mark for the end of a string occurs in the encoding of the character.  It counts
wherever it is. -/
def endsString (c : Char) : Bool := (String.utf8EncodeChar c).contains 0x9c

/-- What the character makes of the control function. -/
def next (s : Control) (c : Char) : Control :=
  if c = '\x1b' then escape
  else if c = '\x18' ∨ c = '\x1a' then none
  else
    let within (first last : Nat) : Prop := first ≤ c.toNat ∧ c.toNat ≤ last
    match s with
    | none => none
    | escape =>
      if within 0x20 0x2f then escapeMiddle
      else if c = '[' then sequence
      else if c = ']' then command
      else if c = 'P' then device
      else if c = 'X' ∨ c = '^' ∨ c = '_' then string
      else if within 0x30 0x7e then none
      else escape
    | escapeMiddle => if within 0x30 0x7e then none else escapeMiddle
    | sequence => if within 0x40 0x7e then none else sequence
    | device =>
      if within 0x20 0x2f then deviceMiddle
      else if within 0x30 0x3f then deviceParameter
      else if within 0x40 0x7e then string
      else device
    | deviceParameter =>
      if within 0x20 0x2f then deviceMiddle else if within 0x3c 0x7e then string else deviceParameter
    | deviceMiddle => if within 0x30 0x7e then string else deviceMiddle
    | string => if endsString c then none else string
    | command => if c = '\x07' then none else command

/-- The character is shown although it comes inside the control function, or there is none. -/
def shows (s : Control) (c : Char) : Bool :=
  match s with
  | none => isShown c
  | escape | escapeMiddle | sequence => isControlBlank c
  | _ => false

end Control

/-- What has been shown so far, the last character first, and whether the next one can follow as text. -/
structure Display where
  control : Control
  isText : Bool
  shown : List Char

namespace Display

/-- Nothing has been shown. -/
def start : Display := ⟨.none, false, []⟩

/-- Takes a character, and shows it if it is text or a blank. -/
def take (d : Display) (c : Char) : Display :=
  if d.isText && isShown c then ⟨if c.toNat < 0x80 then d.control else .none, true, c :: d.shown⟩
  else if d.control.shows c then ⟨d.control.next c, true, c :: d.shown⟩
  else ⟨d.control.next c, false, d.shown⟩

end Display

/-- What is left of the text when control characters and control functions are taken out. -/
def visible (text : String) : String :=
  String.ofList (text.toList.foldl Display.take Display.start).shown.reverse

end LetArith.Text
