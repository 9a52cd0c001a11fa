import LetArith.Expr.Parse
import LetArith.Proofs.Spelling

/-!
# LetArith.Proofs.Reading — taking tokens one after another

What a reader sees of a text is the list of the tokens that it can take.  `Lookahead.Reads` says that
taking tokens gives a certain list, and `ParseM.Gives` says what a step of the reader comes to when it
has a certain list ahead.

* `Lookahead.tokens_eq_ok_iff`: a text has these tokens exactly if they can be taken, with its end
  behind them.
* `ParseM.Gives.bind`: a sequence of steps has the lists of its steps ahead, one behind the other.
-/

namespace LetArith

/-- At the end of the text, the end is all that can be read. -/
theorem Cursor.scan_of_endOfInput {c next : Cursor} {lexeme : Lexeme} (h : c.scan = (.ok lexeme, next))
    (ht : lexeme.token = .endOfInput) : next.scan = (.ok lexeme, next) := by
  rcases spells_of_scanLexeme h with ⟨hr, -, rfl⟩ | ⟨chars, spells, -⟩
  · have hn : (c.skipWhile isBlank).skipWhile isBlank = c.skipWhile isBlank := by
      simp only [skipWhile, run] at hr ⊢
      simp [hr]
    rw [scan, hn]
    exact h
  · rw [ht] at spells
    cases spells with
    | punctuation sign => rcases eq_of_punctuation? sign with ⟨-, h⟩ | ⟨-, h⟩ | ⟨-, h⟩ <;> cases h

/-! ### Lists of tokens ahead -/

namespace Lookahead

/-- Taking the tokens from `a` on gives these ones, and leads to `b`. -/
inductive Reads : Lookahead → List Lexeme → Lookahead → Prop
  | nil (a : Lookahead) : Reads a [] a
  | cons {a b c : Lookahead} {lexeme : Lexeme} {lexemes : List Lexeme} (first : a.advance = (.ok lexeme, b))
      (others : Reads b lexemes c) : Reads a (lexeme :: lexemes) c

variable {a b c : Lookahead} {lexeme : Lexeme} {lexemes front back : List Lexeme}

theorem reads_cons_iff :
    a.Reads (lexeme :: lexemes) c ↔ ∃ b, a.advance = (.ok lexeme, b) ∧ b.Reads lexemes c := by
  constructor
  · intro h
    cases h with
    | cons first others => exact ⟨_, first, others⟩
  · rintro ⟨b, first, others⟩
    exact .cons first others

theorem reads_append_iff : a.Reads (front ++ back) c ↔ ∃ b, a.Reads front b ∧ b.Reads back c := by
  induction front generalizing a with
  | nil =>
    constructor
    · exact fun h => ⟨a, .nil a, h⟩
    · rintro ⟨b, h, hb⟩
      cases h
      exact hb
  | cons lexeme front ih =>
    rw [List.cons_append, reads_cons_iff]
    constructor
    · rintro ⟨m, first, others⟩
      obtain ⟨b, hf, hb⟩ := ih.mp others
      exact ⟨b, .cons first hf, hb⟩
    · rintro ⟨b, h, hb⟩
      obtain ⟨m, first, hf⟩ := reads_cons_iff.mp h
      exact ⟨m, first, ih.mpr ⟨b, hf, hb⟩⟩

theorem Reads.append (h : a.Reads front b) (h' : b.Reads back c) : a.Reads (front ++ back) c :=
  reads_append_iff.mpr ⟨b, h, h'⟩

theorem reads_singleton (h : a.advance = (.ok lexeme, b)) : a.Reads [lexeme] b := .cons h (.nil b)

/-- The first token that can be taken is the one that is held. -/
theorem Reads.held_eq (h : a.Reads (lexeme :: lexemes) b) : a.held = lexeme := by
  obtain ⟨m, first, -⟩ := reads_cons_iff.mp h
  exact (held_advance first).symm

theorem ofCursor_eq_ok_iff {start : Cursor} :
    ofCursor start = .ok a ↔ start.scan = (.ok a.held, a.cursor) := by
  unfold ofCursor
  split
  · next lexeme next h =>
    rw [h]
    constructor
    · intro heq
      cases heq
      rfl
    · intro heq
      cases heq
      rfl
  · next e next h =>
    rw [h]
    constructor <;> intro heq <;> cases heq

theorem advance_eq_ok_iff : a.advance = (.ok lexeme, b) ↔ lexeme = a.held ∧ ofCursor a.cursor = .ok b := by
  rw [ofCursor_eq_ok_iff]
  unfold advance
  split
  · next next behind h =>
    rw [h]
    constructor
    · intro heq
      cases heq
      exact ⟨rfl, rfl⟩
    · rintro ⟨rfl, heq⟩
      cases heq
      rfl
  · next e behind h =>
    rw [h]
    constructor
    · intro heq
      cases heq
    · rintro ⟨-, heq⟩
      cases heq

/-- The tokens of a text are those that can be taken before its end. -/
theorem tokens_eq_ok_iff {start : Cursor} :
    start.tokens = .ok lexemes ↔ (∀ lexeme ∈ lexemes, lexeme.token ≠ .endOfInput) ∧
      ∃ a b last, ofCursor start = .ok a ∧ a.Reads (lexemes ++ [last]) b ∧ last.token = .endOfInput := by
  induction lexemes generalizing start with
  | nil =>
    rw [Cursor.tokens_eq_ok_nil_iff]
    constructor
    · rintro ⟨last, next, hs, ht⟩
      -- the end can be taken as well, since behind it is the end again
      have again : ofCursor next = .ok ⟨last, next⟩ :=
        ofCursor_eq_ok_iff.mpr (Cursor.scan_of_endOfInput hs ht)
      exact ⟨by simp, ⟨last, next⟩, ⟨last, next⟩, last, ofCursor_eq_ok_iff.mpr hs,
        reads_singleton (advance_eq_ok_iff.mpr ⟨rfl, again⟩), ht⟩
    · rintro ⟨-, a, b, last, hs, hr, ht⟩
      exact ⟨last, a.cursor, hr.held_eq ▸ ofCursor_eq_ok_iff.mp hs, ht⟩
  | cons lexeme lexemes ih =>
    rw [Cursor.tokens_eq_ok_cons_iff]
    constructor
    · rintro ⟨next, hs, ht, hn⟩
      obtain ⟨hne, a, b, last, ha, hr, hl⟩ := ih.mp hn
      refine ⟨List.forall_mem_cons.mpr ⟨ht, hne⟩, ⟨lexeme, next⟩, b, last, ofCursor_eq_ok_iff.mpr hs, ?_, hl⟩
      exact .cons (advance_eq_ok_iff.mpr ⟨rfl, ha⟩) hr
    · rintro ⟨all, a, b, last, hs, hr, hl⟩
      obtain ⟨ht, hne⟩ := List.forall_mem_cons.mp all
      obtain ⟨m, first, others⟩ := reads_cons_iff.mp hr
      obtain ⟨rfl, hm⟩ := advance_eq_ok_iff.mp first
      exact ⟨a.cursor, ofCursor_eq_ok_iff.mp hs, ht, ih.mpr ⟨hne, m, b, last, hm, others, hl⟩⟩

end Lookahead

/-! ### Steps of the reader -/

namespace ParseM

variable {α β : Type} {s s' : ParseState} {lexeme : Lexeme} {lexemes front back : List Lexeme}

theorem bind_of_ok {m : ParseM α} {x : α} (h : m s = .ok x s') (f : α → ParseM β) : (m >>= f) s = f x s' := by
  simp only [Bind.bind, EStateM.bind, h]

theorem bind_of_error {m : ParseM α} {e : ParseError} (h : m s = .error e s') (f : α → ParseM β) :
    (m >>= f) s = .error e s' := by
  simp only [Bind.bind, EStateM.bind, h]

theorem bind_eq_ok_iff {m : ParseM α} {f : α → ParseM β} {y : β} :
    (m >>= f) s = .ok y s' ↔ ∃ x t, m s = .ok x t ∧ f x t = .ok y s' := by
  cases h : m s with
  | ok x t =>
    rw [bind_of_ok h]
    constructor
    · exact fun hf => ⟨x, t, rfl, hf⟩
    · rintro ⟨x', t', heq, hf⟩
      cases heq
      exact hf
  | error e t => simp [bind_of_error h]

theorem bind_eq_error_iff {m : ParseM α} {f : α → ParseM β} {e : ParseError} :
    (m >>= f) s = .error e s' ↔ m s = .error e s' ∨ ∃ x t, m s = .ok x t ∧ f x t = .error e s' := by
  cases h : m s with
  | ok x t =>
    rw [bind_of_ok h]
    constructor
    · exact fun hf => .inr ⟨x, t, rfl, hf⟩
    · rintro (heq | ⟨x', t', heq, hf⟩)
      · cases heq
      · cases heq
        exact hf
  | error e' t => simp [bind_of_error h]

theorem pure_eq_ok_iff {x y : α} : (pure x : ParseM α) s = .ok y s' ↔ x = y ∧ s = s' := by
  show EStateM.Result.ok x s = .ok y s' ↔ _
  simp

/-! What a step that succeeds has taken. -/

theorem peek_eq_ok_iff : peek s = .ok lexeme s' ↔ s.ahead.held = lexeme ∧ s = s' := by
  simp [peek]

theorem advance_of_ok (h : advance s = .ok lexeme s') : s.ahead.advance = (.ok lexeme, s'.ahead) := by
  unfold advance at h
  split at h
  · next heq =>
    cases h
    exact heq
  · cases h

theorem expect_of_ok {kind : TokenKind} (h : expect kind s = .ok lexeme s') :
    s.ahead.advance = (.ok lexeme, s'.ahead) ∧ lexeme.token.kind = kind := by
  obtain ⟨found, t, ha, h⟩ := bind_eq_ok_iff.mp h
  split at h
  · next hk =>
    obtain ⟨rfl, rfl⟩ := pure_eq_ok_iff.mp h
    exact ⟨advance_of_ok ha, hk⟩
  · cases h

theorem peekWord_of_ok {word : String × Span} (h : peekWord s = .ok word s') :
    s.ahead.held = ⟨.word word.1, word.2⟩ ∧ s = s' := by
  obtain ⟨found, t, hp, h⟩ := bind_eq_ok_iff.mp h
  obtain ⟨rfl, rfl⟩ := peek_eq_ok_iff.mp hp
  cases ht : s.ahead.held.token with
  | word text =>
    rw [ht] at h
    obtain ⟨rfl, rfl⟩ := pure_eq_ok_iff.mp h
    exact ⟨by rw [← ht], rfl⟩
  | integer _ | openParen | closeParen | comma | endOfInput =>
    rw [ht] at h
    cases h

theorem newName_of_ok {scope : Scope} {name : String} (h : newName scope s = .ok name s') :
    ∃ lexeme, s.ahead.advance = (.ok lexeme, s'.ahead) ∧ lexeme.token = .word name ∧
      Keyword.ofText? name = none ∧ scope.contains name = false := by
  obtain ⟨found, t, ha, h⟩ := bind_eq_ok_iff.mp h
  cases ht : found.token with
  | word text =>
    simp only [ht] at h
    split at h
    · cases h
    · next free =>
      split at h
      · cases h
      · next fresh =>
        obtain ⟨rfl, rfl⟩ := pure_eq_ok_iff.mp h
        exact ⟨found, advance_of_ok ha, ht, by simpa using free, by simpa using fresh⟩
  | integer _ | openParen | closeParen | comma | endOfInput =>
    rw [ht] at h
    cases h

theorem recordBound_of_ok {name : String} {operand : Expr} {u : Unit}
    (h : recordBound name operand s = .ok u s') :
    s'.ahead = s.ahead := by
  cases h
  rfl

/-! What a step comes to, given the tokens ahead. -/

/-- The result is `r`, and after a value the reader stands at `b`. -/
inductive EndsIn (b : Lookahead) : EStateM.Result ParseError ParseState α → Except ParseError α → Prop
  | ok (x : α) (events : Array ParseEvent) : EndsIn b (.ok x ⟨b, events⟩) (.ok x)
  | error (e : ParseError) (s : ParseState) : EndsIn b (.error e s) (.error e)

/-- With these tokens ahead, the step takes them all for its value, or stops with its error at one of them. -/
def Gives (m : ParseM α) (lexemes : List Lexeme) (r : Except ParseError α) : Prop :=
  ∀ s b, s.ahead.Reads lexemes b → EndsIn b (m s) r

theorem Gives.bind {m : ParseM α} {f : α → ParseM β} {r : Except ParseError α} {g : α → Except ParseError β}
    (hm : Gives m front r) (hf : ∀ x, r = .ok x → Gives (f x) back (g x)) :
    Gives (m >>= f) (front ++ back) (r >>= g) := by
  intro s b h
  obtain ⟨c, hfront, hback⟩ := Lookahead.reads_append_iff.mp h
  have first := hm s c hfront
  cases hs : m s with
  | error e s' =>
    rw [hs] at first
    cases first
    rw [bind_of_error hs]
    exact .error e s'
  | ok x s' =>
    rw [hs] at first
    cases first with
    | ok x events =>
      rw [bind_of_ok hs]
      exact hf x rfl _ b hback

/-- A step that succeeds and one behind it. -/
theorem Gives.andThen {m : ParseM α} {f : α → ParseM β} {x : α} {r : Except ParseError β}
    (hm : Gives m front (.ok x)) (hf : Gives (f x) back r) : Gives (m >>= f) (front ++ back) r :=
  hm.bind (g := fun _ => r) fun _ h => Except.ok.inj h ▸ hf

theorem gives_pure (x : α) : Gives (pure x) [] (.ok x) := by
  intro s b h
  cases h
  exact .ok x s.events

theorem gives_throw (e : ParseError) : Gives (throw e : ParseM α) lexemes (.error e) :=
  fun s _ _ => .error e s

theorem gives_advance (lexeme : Lexeme) : Gives advance [lexeme] (.ok lexeme) := by
  intro s b h
  obtain ⟨c, first, others⟩ := Lookahead.reads_cons_iff.mp h
  cases others
  have step : advance s = .ok lexeme ⟨b, s.events.push (.scanned b.held)⟩ := by simp only [advance, first]
  rw [step]
  exact .ok lexeme _

theorem gives_expect {kind : TokenKind} (hk : lexeme.token.kind = kind) :
    Gives (expect kind) [lexeme] (.ok lexeme) := by
  refine (gives_advance lexeme).andThen ?_
  rw [if_pos hk]
  exact gives_pure lexeme

theorem gives_newName {scope : Scope} {name : String} (ht : lexeme.token = .word name)
    (free : Keyword.ofText? name = none) (fresh : scope.contains name = false) :
    Gives (newName scope) [lexeme] (.ok name) := by
  refine (gives_advance lexeme).andThen ?_
  simp only [ht, free, fresh]
  exact gives_pure name

theorem gives_recordBound (name : String) (operand : Expr) :
    Gives (recordBound name operand) [] (.ok ()) := by
  intro s b h
  cases h
  exact .ok () _

theorem peek_bind (f : Lexeme → ParseM α) : (ParseM.peek >>= f) s = f s.ahead.held s := rfl

/-- Looking at the token ahead takes nothing. -/
theorem Gives.peek {f : Lexeme → ParseM α} {r : Except ParseError α}
    (h : Gives (f lexeme) (lexeme :: lexemes) r) :
    Gives (ParseM.peek >>= f) (lexeme :: lexemes) r := by
  intro s b hr
  rw [peek_bind, hr.held_eq]
  exact h s b hr

theorem peekWord_bind {f : String × Span → ParseM α} {text : String} (ht : s.ahead.held.token = .word text) :
    (peekWord >>= f) s = f (text, s.ahead.held.span) s := by
  have word : peekWord s = .ok (text, s.ahead.held.span) s := by
    rw [peekWord, peek_bind]
    simp only [ht]
    rfl
  exact bind_of_ok word f

theorem Gives.peekWord {f : String × Span → ParseM α} {r : Except ParseError α} {text : String}
    (ht : lexeme.token = .word text) (h : Gives (f (text, lexeme.span)) (lexeme :: lexemes) r) :
    Gives (ParseM.peekWord >>= f) (lexeme :: lexemes) r := by
  intro s b hr
  rw [peekWord_bind (by rw [hr.held_eq, ht]), hr.held_eq]
  exact h s b hr

end ParseM
end LetArith
