import LetArith.Proofs.Language
import LetArith.Proofs.MaximalMunch
import LetArith.Proofs.Refusing
import LetArith.Proofs.Viability

/-!
# LetArith.Proofs.Stopping — where the reader stops

The reader takes the tokens before a slot, if they are right, and stops at the slot, if the token there
is wrong.  With what an error of the reader says, this tells for every text where it is refused and why.

* `ParseM.stops_agenda`: a wrong token in the slot behind the first tokens of an agenda makes the reader
  stop there.
* `Lookahead.reads_iff_munches`: the tokens that are taken of a text are those that it is munched into.
* `Expr.StopsAt.parse_eq`: a text is refused for a token that is wrong in its slot.
* `Expr.exists_stopsAt_of_parse`: and for nothing else but a lexical error.
-/

namespace LetArith

open Grammar

namespace ParseM

/-! ### What makes the reader stop -/

section

variable {α β : Type} {lexemes front back : List Lexeme} {lexeme found : Lexeme} {peeks : Bool}
  {err : ParseError}

/-- With these tokens ahead, and this one behind them, the step stops with the error.  It may have to
read one token more, unless it only looks at the last one. -/
def Stops (m : ParseM α) (lexemes : List Lexeme) (found : Lexeme) (peeks : Bool) (err : ParseError) : Prop :=
  ∀ s b, s.ahead.Reads lexemes b → b.held = found → (peeks = true ∨ ∃ c, b.advance = (.ok found, c)) →
    ∃ s', m s = .error err s'

theorem Stops.first {m : ParseM α} (h : Stops m lexemes found peeks err) (f : α → ParseM β) :
    Stops (m >>= f) lexemes found peeks err := by
  intro s b taken held ready
  obtain ⟨s', hs⟩ := h s b taken held ready
  exact ⟨s', bind_of_error hs f⟩

/-- A step that succeeds, and one behind it that stops. -/
theorem Stops.behind {m : ParseM α} {f : α → ParseM β} {x : α} (hm : Gives m front (.ok x))
    (hf : Stops (f x) back found peeks err) : Stops (m >>= f) (front ++ back) found peeks err := by
  intro s b taken held ready
  obtain ⟨c, hfront, hback⟩ := Lookahead.reads_append_iff.mp taken
  have first := hm s c hfront
  cases hs : m s with
  | error e t =>
    rw [hs] at first
    cases first
  | ok y t =>
    rw [hs] at first
    cases first with
    | ok x events =>
      obtain ⟨s', h⟩ := hf ⟨c, events⟩ b hback held ready
      exact ⟨s', (bind_of_ok hs f).trans h⟩

theorem stops_throw (e : ParseError) : Stops (throw e : ParseM α) lexemes found peeks e :=
  fun s _ _ _ _ => ⟨s, rfl⟩

/-- The token ahead is the first one, or the one at which the step stops if there are no others. -/
theorem held_of_reads {a b : Lookahead} (taken : a.Reads lexemes b) (held : b.held = found) :
    a.held = lexemes.headD found := by
  cases lexemes with
  | nil =>
    cases taken
    exact held
  | cons lexeme lexemes => exact taken.held_eq

theorem Stops.peek {f : Lexeme → ParseM α} (h : Stops (f (lexemes.headD found)) lexemes found peeks err) :
    Stops (ParseM.peek >>= f) lexemes found peeks err := by
  intro s b taken held ready
  rw [peek_bind, held_of_reads taken held]
  exact h s b taken held ready

theorem Stops.peekWord {f : String × Span → ParseM α} {text : String}
    (ht : (lexemes.headD found).token = .word text)
    (h : Stops (f (text, (lexemes.headD found).span)) lexemes found peeks err) :
    Stops (ParseM.peekWord >>= f) lexemes found peeks err := by
  intro s b taken held ready
  have first := held_of_reads taken held
  rw [peekWord_bind (by rw [first, ht]), first]
  exact h s b taken held ready

/-- Looking at a token that is no word. -/
theorem stops_peekWord (f : String × Span → ParseM α) (noWord : ∀ text, found.token ≠ .word text) :
    Stops (ParseM.peekWord >>= f) [] found peeks (.unexpectedToken Keyword.listing found) := by
  refine .first (.peek ?_) f
  rw [List.headD_nil]
  cases ht : found.token with
  | word text => exact absurd ht (noWord text)
  | integer _ | openParen | closeParen | comma | endOfInput => exact stops_throw _

/-- A step that takes a token and then decides against it. -/
theorem stops_taking {f : Lexeme → ParseM α} (h : ∀ s, ∃ s', f found s = .error err s') :
    Stops (advance >>= f) [] found false err := by
  intro s b taken held ready
  cases taken
  rcases ready with never | ⟨c, taken⟩
  · cases never
  · have step : advance s = .ok found ⟨c, s.events.push (.scanned c.held)⟩ := by simp only [advance, taken]
    obtain ⟨s', hs⟩ := h ⟨c, s.events.push (.scanned c.held)⟩
    exact ⟨s', (bind_of_ok step f).trans hs⟩

theorem stops_expect {kind : TokenKind} (other : found.token.kind ≠ kind) :
    Stops (expect kind) [] found false (.unexpectedToken kind.text found) := by
  refine stops_taking fun s => ⟨s, ?_⟩
  rw [if_neg other]
  rfl

theorem stops_newName {limit : Option Nat} {scope : Scope} {fault : Fault}
    (wrong : (Slot.name scope).HasFault limit found.token fault) :
    Stops (newName scope) [] found false (fault.about found) := by
  refine stops_taking fun s => ⟨s, ?_⟩
  generalize ht : found.token = token at wrong
  cases wrong with
  | noName noWord =>
    cases token with
    | word text => exact absurd rfl (noWord text)
    | integer _ | openParen | closeParen | comma | endOfInput => rfl
  | reservedName scope keyword =>
    simp only [ht, Keyword.ofText?_text, Fault.about]
    rfl
  | redeclaration free visible =>
    simp only [ht, free, visible, Fault.about]
    rfl

end

section

variable {n level levels : Nat} {lexemes : List Lexeme} {found : Lexeme} {fault : Fault} {scope : Scope}
  {place : Nat}

theorem stops_expression (hn : level + levels = n)
    (wrong : Slot.ExpressionFault (some n) level found.token fault) :
    Stops (expression levels scope place) [] found true (fault.about found) := by
  generalize ht : found.token = token at wrong
  have head : (([] : List Lexeme).headD found).token = token := ht
  cases wrong with
  | noWord noWord =>
    -- the word is looked for first, also where no level is left
    subst ht
    cases levels with
    | zero => exact stops_peekWord _ noWord
    | succ levels =>
      rw [expression_eq_read]
      exact stops_peekWord _ noWord
  | unknownOperation within free =>
    have lt := within n rfl
    obtain ⟨levels, rfl⟩ : ∃ deeper, levels = deeper + 1 := ⟨levels - 1, by omega⟩
    rw [expression_eq_read]
    refine .peekWord head ?_
    simp only [free, Fault.about, ht]
    exact stops_throw _
  | tooDeep text bounded deep =>
    obtain rfl := Option.some.inj bounded
    obtain rfl : levels = 0 := by omega
    rw [Fault.about]
    exact .peekWord head (stops_throw _)

/-- A wrong token where a part should start. -/
theorem stops_part {symbol : Symbol} (hn : level + levels = n)
    (wrong : (Slot.part symbol scope place level).HasFault (some n) found.token fault) :
    Stops (readPart (expression levels) symbol scope place) [] found true (fault.about found) := by
  cases symbol with
  | expression =>
    cases wrong with
    | expression first => exact stops_expression hn first
  | operand =>
    refine .peek ?_
    rw [List.headD_nil]
    generalize ht : found.token = token at wrong
    cases wrong with
    | operand first =>
      simp only [Keyword.ofText?_text, Option.isSome_some, if_true]
      exact stops_expression hn (ht ▸ first)
    | noOperand noWord noInteger =>
      cases token with
      | integer value => exact absurd rfl (noInteger value)
      | word text => exact absurd rfl (noWord text)
      | openParen | closeParen | comma | endOfInput => exact stops_throw _
    | unboundVariable free unknown =>
      simp only [free, unknown, Fault.about, ht]
      exact stops_throw _

/-- A wrong token behind the reserved word of a part. -/
theorem stops_inside {symbol : Symbol} {keyword : Keyword} {lexeme : Lexeme} {peeks : Bool} {err : ParseError}
    (hl : lexeme.token = .word keyword.text)
    (h : Stops (read (expression levels) (.after scope place keyword)) lexemes found peeks err) :
    Stops (readPart (expression (levels + 1)) symbol scope place) (lexeme :: lexemes) found peeks err := by
  have expression : Stops (expression (levels + 1) scope place) (lexeme :: lexemes) found peeks err := by
    rw [expression_eq_read]
    refine .peekWord hl ?_
    simp only [Keyword.ofText?_text]
    exact .behind (gives_expect (by rw [hl]; rfl)) h
  cases symbol with
  | expression => exact expression
  | operand =>
    refine .peek ?_
    simp only [List.headD_cons, hl, Keyword.ofText?_text, Option.isSome_some, if_true]
    exact expression

/-- A part that is derived within the limit is read. -/
theorem gives_part {symbol : Symbol} {e : Expr} (hn : level + levels = n)
    (h : Derives (some n) symbol scope place level (lexemes.map Lexeme.token) e) :
    Gives (readPart (expression levels) symbol scope place) lexemes (.ok e) := by
  have complete : Complete n symbol level (readPart (expression levels) symbol) := by
    cases symbol with
    | expression => exact complete_expression hn
    | operand => exact complete_operand (complete_expression hn)
  have low := h.nesting_le (by omega)
  have none : e.firstAt n level lexemes = none := (Expr.firstAt_eq_none_iff h.tokens_eq).mpr (by omega)
  have given := complete scope place lexemes e h.unlimited
  rwa [Expr.outcome, none] at given

/-- By induction on the tokens that were read: a wrong token in the slot behind them makes the reader stop. -/
theorem stops_agenda {agenda : Agenda} {front : List Token} {slot : Slot}
    (h : agenda.Awaits (some n) level front slot) :
    ∀ {levels : Nat} {lexemes : List Lexeme}, level + levels = n → lexemes.map Lexeme.token = front →
      slot.HasFault (some n) found.token fault →
        Stops (read (expression levels) agenda) lexemes found slot.peeks (fault.about found) := by
  induction h with
  | sign =>
    intro levels lexemes hn ht wrong
    obtain rfl := List.map_eq_nil_iff.mp ht
    cases wrong with
    | noSign other => exact .first (stops_expect other) _
  | signThen others ih =>
    intro levels lexemes hn ht wrong
    obtain ⟨lexeme, lexemes, rfl, hl, hr⟩ := List.map_eq_cons_iff.mp ht
    exact .behind (gives_expect (by rw [hl])) (ih hn hr wrong)
  | name =>
    intro levels lexemes hn ht wrong
    obtain rfl := List.map_eq_nil_iff.mp ht
    exact .first (stops_newName wrong) _
  | nameThen free fresh others ih =>
    intro levels lexemes hn ht wrong
    obtain ⟨lexeme, lexemes, rfl, hl, hr⟩ := List.map_eq_cons_iff.mp ht
    exact .behind (gives_newName hl free fresh) (ih hn hr wrong)
  | boundThen others ih =>
    intro levels lexemes hn ht wrong
    exact .behind (gives_recordBound _ _) (ih hn ht wrong)
  | part =>
    intro levels lexemes hn ht wrong
    obtain rfl := List.map_eq_nil_iff.mp ht
    exact .first (stops_part hn wrong) _
  | inside within inner ih =>
    intro levels lexemes hn ht wrong
    obtain ⟨lexeme, lexemes, rfl, hl, hr⟩ := List.map_eq_cons_iff.mp ht
    have lt := within n rfl
    obtain ⟨levels, rfl⟩ : ∃ deeper, levels = deeper + 1 := ⟨levels - 1, by omega⟩
    exact .first (stops_inside hl (ih (by omega) hr wrong)) _
  | partThen first others ih =>
    -- a part within the limit is read in full, and the wrong token is behind it
    intro levels lexemes hn ht wrong
    obtain ⟨front, back, rfl, rfl, hr⟩ := List.map_eq_append_iff.mp ht
    exact .behind (gives_part hn first) (ih hn hr wrong)

/-- A wrong token in the slot behind the first tokens of a program makes the reader stop. -/
theorem stops_program {slot : Slot} (h : Grammar.Awaits (some maxDepth) (lexemes.map Lexeme.token) slot)
    (wrong : slot.HasFault (some maxDepth) found.token fault) :
    Stops program lexemes found slot.peeks (fault.about found) := by
  rw [program_eq_read]
  refine .peek ?_
  generalize ht : lexemes.map Lexeme.token = tokens at h
  cases h with
  | start =>
    obtain rfl := List.map_eq_nil_iff.mp ht
    rw [List.headD_nil]
    generalize hf : found.token = token at wrong
    cases wrong with
    | noProgram noWord =>
      have other : token.kind ≠ .word := by
        cases token with
        | word text => exact absurd rfl (noWord text)
        | integer _ | openParen | closeParen | comma | endOfInput => simp [Token.kind]
      rw [if_neg other]
      exact stops_throw _
    | program first =>
      simp only [Token.kind, if_true]
      exact .first (stops_expression (Nat.zero_add maxDepth) (hf ▸ first)) _
  | inside h =>
    obtain ⟨keyword, rfl⟩ := h.exists_keyword
    obtain ⟨lexeme, others, rfl, hl, -⟩ := List.map_eq_cons_iff.mp ht
    rw [List.headD_cons, if_pos (by rw [hl]; rfl)]
    exact stops_agenda h (Nat.zero_add maxDepth) ht wrong

end

end ParseM

/-! ### Texts -/

namespace Lookahead

variable {start : Cursor} {a b : Lookahead} {front : List Lexeme}

theorem exists_of_munches {last : Cursor} (h : start.Munches front last) (hb : ofCursor last = .ok b) :
    ∃ a, ofCursor start = .ok a := by
  cases front with
  | nil =>
    cases h
    exact ⟨b, hb⟩
  | cons lexeme front =>
    obtain ⟨next, hs, -⟩ := Cursor.munches_cons_iff.mp h
    exact ⟨⟨lexeme, next⟩, ofCursor_eq_ok_iff.mpr hs⟩

/-- What is taken before the end of a text is what it is munched into. -/
theorem reads_iff_munches (ha : ofCursor start = .ok a)
    (inner : ∀ lexeme ∈ front, lexeme.token ≠ .endOfInput) :
    a.Reads front b ↔ ∃ last, start.Munches front last ∧ ofCursor last = .ok b := by
  induction front generalizing start a with
  | nil =>
    constructor
    · intro h
      cases h
      exact ⟨start, .nil start, ha⟩
    · rintro ⟨last, munched, hb⟩
      cases munched
      obtain rfl := Except.ok.inj (ha.symm.trans hb)
      exact .nil a
  | cons lexeme front ih =>
    obtain ⟨ht, others⟩ := List.forall_mem_cons.mp inner
    have first := ofCursor_eq_ok_iff.mp ha
    rw [reads_cons_iff]
    constructor
    · rintro ⟨m, taken, h⟩
      obtain ⟨rfl, hm⟩ := advance_eq_ok_iff.mp taken
      obtain ⟨last, munched, hb⟩ := (ih hm others).mp h
      exact ⟨last, Cursor.munches_cons_iff.mpr ⟨_, first, ht, munched⟩, hb⟩
    · rintro ⟨last, munched, hb⟩
      obtain ⟨next, hs, -, munched⟩ := Cursor.munches_cons_iff.mp munched
      obtain ⟨rfl, rfl⟩ : a.held = lexeme ∧ a.cursor = next := by simpa [first] using hs
      obtain ⟨m, hm⟩ := exists_of_munches munched hb
      exact ⟨m, advance_eq_ok_iff.mpr ⟨rfl, hm⟩, (ih hm others).mpr ⟨last, munched, hb⟩⟩

theorem tokens_eq_error_of_ofCursor {e : LexicalError} (h : ofCursor start = .error e) :
    start.tokens = .error e := by
  unfold ofCursor at h
  split at h
  · cases h
  · next e' next hs =>
    cases h
    exact Cursor.tokens_of_scan_error hs

/-- The tokens of a text are those of the cursor behind the first one, as far as errors go. -/
theorem tokens_eq_error {e : LexicalError} (ha : ofCursor start = .ok a) (h : a.cursor.tokens = .error e) :
    start.tokens = .error e := by
  have first := ofCursor_eq_ok_iff.mp ha
  have inner : a.held.token ≠ .endOfInput := by
    intro ending
    have nothing := Cursor.tokens_eq_ok_nil_iff.mpr ⟨_, _, Cursor.scan_of_endOfInput first ending, ending⟩
    cases nothing.symm.trans h
  rw [Cursor.tokens_of_scan first inner, h]
  rfl

/-- Where no token can be read behind the one that is taken, there is the error of the text. -/
theorem Reads.tokens_eq_error {e : LexicalError} {next : Lookahead} (h : a.Reads front b)
    (failed : b.advance = (.error e, next)) :
    ∀ {start : Cursor}, ofCursor start = .ok a → start.tokens = .error e := by
  induction h with
  | nil a =>
    intro start ha
    refine Lookahead.tokens_eq_error ha ?_
    unfold advance at failed
    split at failed
    · cases failed
    · next e' behind hs =>
      cases failed
      exact Cursor.tokens_of_scan_error hs
  | cons first others ih =>
    intro start ha
    obtain ⟨rfl, hm⟩ := advance_eq_ok_iff.mp first
    exact Lookahead.tokens_eq_error ha (ih failed hm)

end Lookahead

namespace Expr

/-- Behind these lexemes of a text there is this one, or the end, and this is wrong with it in its slot.
Unless it is enough to look at it, there is no lexical error behind it. -/
inductive StopsAt (text : String) (front : List Lexeme) (found : Lexeme) (fault : Fault) : Prop
  | intro {last next : Cursor} {slot : Slot} (munched : (Cursor.ofString text).Munches front last)
      (scanned : last.scan = (.ok found, next))
      (awaits : Awaits (some maxDepth) (front.map Lexeme.token) slot)
      (wrong : slot.fault? (some maxDepth) found.token = some fault)
      (ready : slot.peeks = true ∨ ∃ lexeme behind, next.scan = (.ok lexeme, behind)) :
      StopsAt text front found fault

variable {text : String} {err : ParseError}

/-- The reader stops at a token that is wrong in its slot. -/
theorem StopsAt.parse_eq {front : List Lexeme} {found : Lexeme} {fault : Fault}
    (h : StopsAt text front found fault) :
    parse text = .error (fault.about found) := by
  cases h with
  | @intro last next slot munched scanned awaits wrong ready =>
    have hb : Lookahead.ofCursor last = .ok ⟨found, next⟩ := Lookahead.ofCursor_eq_ok_iff.mpr scanned
    obtain ⟨a, ha⟩ := Lookahead.exists_of_munches munched hb
    have inner : ∀ lexeme ∈ front, lexeme.token ≠ .endOfInput := fun lexeme hm ending =>
      awaits.endOfInput_notMem (ending ▸ List.mem_map_of_mem hm)
    have taken := (Lookahead.reads_iff_munches ha inner).mpr ⟨last, munched, hb⟩
    have ready : slot.peeks = true ∨ ∃ c, Lookahead.advance ⟨found, next⟩ = (.ok found, c) := by
      refine ready.imp_right fun ⟨lexeme, behind, hs⟩ => ⟨⟨lexeme, behind⟩, ?_⟩
      exact Lookahead.advance_eq_ok_iff.mpr ⟨rfl, Lookahead.ofCursor_eq_ok_iff.mpr hs⟩
    have wrong' := Slot.fault?_eq_some_iff.mp wrong
    obtain ⟨s', stopped⟩ := ParseM.stops_program awaits wrong' ⟨a, #[]⟩ _ taken rfl ready
    unfold parse parseRecorded
    rw [ha]
    simp only [stopped]

/-- Every error of a text is its lexical error, or one of a token that is wrong in its slot. -/
theorem exists_stopsAt_of_parse (h : parse text = .error err) :
    (∃ e, tokenize text = .error e ∧ err = .lexical e) ∨
      ∃ front found fault, StopsAt text front found fault ∧ err = fault.about found := by
  unfold parse parseRecorded at h
  split at h
  · next e he =>
    cases h
    exact .inl ⟨e, Lookahead.tokens_eq_error_of_ofCursor he, rfl⟩
  · next a ha =>
    split at h
    · cases h
    · next e s' hs =>
      cases h
      cases ParseM.refusal_program hs with
      | lexical taken failed => exact .inl ⟨_, taken.tokens_eq_error failed ha, rfl⟩
      | @fault front b slot fault taken awaits wrong ready =>
        -- no program goes on behind the end, so that what was taken is what the text is munched into
        have inner : ∀ lexeme ∈ front, lexeme.token ≠ .endOfInput := fun lexeme hm ending =>
          awaits.endOfInput_notMem (ending ▸ List.mem_map_of_mem hm)
        obtain ⟨last, munched, hb⟩ := (Lookahead.reads_iff_munches ha inner).mp taken
        have scanned := Lookahead.ofCursor_eq_ok_iff.mp hb
        refine .inr ⟨front, b.held, fault, .intro munched scanned awaits wrong (ready.imp_right ?_), rfl⟩
        rintro ⟨c, taken⟩
        obtain ⟨-, hc⟩ := Lookahead.advance_eq_ok_iff.mp taken
        exact ⟨_, _, Lookahead.ofCursor_eq_ok_iff.mp hc⟩

end Expr
end LetArith
