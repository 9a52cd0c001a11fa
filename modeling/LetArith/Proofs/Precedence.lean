import LetArith.Proofs.Stopping

/-!
# LetArith.Proofs.Precedence — lexical errors against errors of the grammar

Tokens are read one ahead, so that a lexical error may be seen before or after an error of the grammar
in front of it.  Two texts are compared here: one with a lexical error behind some tokens, and one that
starts with the same tokens and has no lexical error.  An error of the second text counts for the first
one if it is seen while the tokens that they share last; otherwise the lexical error comes first.

* `Grammar.Slot.HasFault.peeked_eq_peeks`: which errors are seen without taking the token.
* `Cursor.Munches.shown_cases`: a text is munched in one way only.
* `Expr.StopsAt.of_same_tokens`: the reader stops alike in texts that start alike.
* `lexical_error_precedence`: hence which error is reported.
-/

namespace LetArith

open Grammar

/-- The error is found by looking at a token, without taking it. -/
def Fault.peeked : Fault → Bool
  | missingExpression => true
  | unknownOperation => true
  | invalidOperand => true
  | unboundVariable => true
  | tooDeep => true
  | unexpectedToken expected => expected == "add, sub, mult, div, let"
  | reservedName => false
  | redeclaration => false

namespace Grammar.Slot

variable {limit : Option Nat} {level : Nat} {slot : Slot} {token : Token} {fault : Fault}

theorem ExpressionFault.peeked (h : ExpressionFault limit level token fault) : fault.peeked = true := by
  cases h with
  | noWord => decide
  | unknownOperation => rfl
  | tooDeep => rfl

/-- The errors that are found by looking at a token are those of the slots that do so. -/
theorem HasFault.peeked_eq_peeks (h : slot.HasFault limit token fault) : fault.peeked = slot.peeks := by
  cases h with
  | noProgram => rfl
  | program first => exact first.peeked
  | expression first => exact first.peeked
  | operand first => exact first.peeked
  | noOperand => rfl
  | unboundVariable => rfl
  | noName =>
    show (Fault.unexpectedToken "variable name").peeked = false
    decide
  | reservedName => rfl
  | redeclaration => rfl
  | @noSign sign _ other => cases sign <;> decide

end Grammar.Slot

/-! ### One text -/

/-- The end of a text, as the last lexeme of all. -/
def endLexeme (text : String) : Lexeme := ⟨.endOfInput, ⟨text.length, text.length⟩⟩

namespace Cursor

variable {c middle next last : Cursor} {found : Lexeme} {front lexemes : List Lexeme}

/-- The end of the text, if anything, is what can be read next. -/
def AtEnd (c : Cursor) : Prop := ∀ found next, c.scan = (.ok found, next) → found.token = .endOfInput

theorem atEnd_of_error {e : LexicalError} (h : c.scan = (.error e, next)) : c.AtEnd := by
  intro found next' h'
  cases h.symm.trans h'

theorem atEnd_of_blanks (h : ∀ ch ∈ c.rest, ch = ' ') : c.AtEnd := by
  intro found next hs
  have blanks := scan_of_blanks h c.column
  cases blanks.symm.trans hs
  rfl

/-- Lexemes that were munched are the first ones of all there are. -/
theorem Munches.exists_rest (h : c.Munches front middle) (all : c.Munches lexemes last) (ends : last.AtEnd) :
    ∃ rest, lexemes = front ++ rest ∧ middle.Munches rest last := by
  induction front generalizing c lexemes with
  | nil =>
    cases h
    exact ⟨lexemes, rfl, all⟩
  | cons lexeme front ih =>
    obtain ⟨next, hs, ht, others⟩ := munches_cons_iff.mp h
    cases lexemes with
    | nil =>
      cases all
      exact absurd (ends _ _ hs) ht
    | cons lexeme' lexemes =>
      obtain ⟨next', hs', -, others'⟩ := munches_cons_iff.mp all
      cases hs.symm.trans hs'
      obtain ⟨rest, rfl, behind⟩ := ih others others'
      exact ⟨rest, rfl, behind⟩

/-- What is read behind some lexemes is the end, and they are all, or the next one of them. -/
theorem Munches.shown_cases (h : c.Munches front middle) (scanned : middle.scan = (.ok found, next))
    (all : c.Munches lexemes last) (ends : last.AtEnd) :
    (lexemes = front ∧ middle = last) ∨
      ∃ back, lexemes = front ++ found :: back ∧ next.Munches back last := by
  obtain ⟨rest, rfl, others⟩ := h.exists_rest all ends
  cases rest with
  | nil =>
    cases others
    exact .inl ⟨List.append_nil front, rfl⟩
  | cons lexeme back =>
    obtain ⟨next', hs, -, behind⟩ := munches_cons_iff.mp others
    cases hs.symm.trans scanned
    exact .inr ⟨back, rfl, behind⟩

/-- A token starts at the cursor or behind it, and is not empty unless it is the end of the text. -/
theorem column_of_scan (h : c.scan = (.ok found, next)) :
    c.column ≤ found.span.start ∧ (found.token ≠ .endOfInput → found.span.start < next.column) := by
  rcases spells_of_scanLexeme h with ⟨-, rfl, -⟩ | ⟨chars, spells, -, -, span, column⟩
  · exact ⟨by simp, fun inner => absurd rfl inner⟩
  · obtain ⟨first, others, rfl, -⟩ := spells.exists_head
    rw [span, column]
    exact ⟨by simp, fun _ => by simp⟩

/-- Lexemes start between the cursors, each one behind the start of the one before. -/
theorem Munches.starts (h : c.Munches lexemes last) : c.column ≤ last.column ∧
    (∀ lexeme ∈ lexemes, c.column ≤ lexeme.span.start ∧ lexeme.span.start < last.column) ∧
    (lexemes.map Lexeme.span).Nodup := by
  induction lexemes generalizing c with
  | nil =>
    cases h
    exact ⟨Nat.le_refl _, by simp, by simp⟩
  | cons lexeme lexemes ih =>
    obtain ⟨next, hs, ht, others⟩ := munches_cons_iff.mp h
    obtain ⟨first, short⟩ := column_of_scan hs
    obtain ⟨behind, starts, distinct⟩ := ih others
    have here := short ht
    refine ⟨by omega, List.forall_mem_cons.mpr ⟨⟨first, by omega⟩, fun other hm => ?_⟩, ?_⟩
    · have later := starts other hm
      omega
    · refine List.nodup_cons.mpr ⟨fun hm => ?_, distinct⟩
      obtain ⟨other, ho, same⟩ := List.mem_map.mp hm
      have later := (starts other ho).1
      rw [same] at later
      omega

/-- A lexeme is known by its columns. -/
theorem Munches.index_eq {lexeme lexeme' : Lexeme} {i j : Nat} (h : c.Munches lexemes last)
    (hi : lexemes[i]? = some lexeme) (hj : lexemes[j]? = some lexeme')
    (same : lexeme.span = lexeme'.span) : i = j := by
  obtain ⟨-, -, distinct⟩ := h.starts
  have inside : i < (lexemes.map Lexeme.span).length := by
    rw [List.length_map]
    exact (List.getElem?_eq_some_iff.mp hi).1
  refine (List.getElem?_inj inside distinct).mp ?_
  rw [List.getElem?_map, List.getElem?_map, hi, hj, Option.map_some, Option.map_some, same]

end Cursor

/-! ### Two texts -/

section

variable {good lexemes front back : List Lexeme} {found : Lexeme}

/-- Of lexemes with the same first tokens, the shorter ones are split where the longer ones are. -/
theorem exists_split_of_longer (begins : good.map Lexeme.token <+: lexemes.map Lexeme.token)
    (split : lexemes = front ++ found :: back) (lt : front.length < good.length) :
    ∃ front' found' back', good = front' ++ found' :: back' ∧
      front'.map Lexeme.token = front.map Lexeme.token ∧ found'.token = found.token := by
  induction front generalizing good lexemes with
  | nil =>
    obtain ⟨found', back', rfl⟩ := List.exists_cons_of_length_pos lt
    subst split
    exact ⟨[], found', back', rfl, rfl, (List.cons_prefix_cons.mp begins).1⟩
  | cons lexeme front ih =>
    obtain ⟨lexeme', good, rfl⟩ := List.exists_cons_of_length_pos (Nat.zero_lt_of_lt lt)
    subst split
    obtain ⟨first, others⟩ := List.cons_prefix_cons.mp begins
    obtain ⟨front', found', back', rfl, same, found_eq⟩ := ih others rfl (Nat.lt_of_succ_lt_succ lt)
    exact ⟨lexeme' :: front', found', back', rfl, by simp [first, same], found_eq⟩

/-- The longer ones are split where the shorter ones are, with no less behind. -/
theorem exists_split_of_shorter
    (begins : (front ++ found :: back).map Lexeme.token <+: lexemes.map Lexeme.token) :
    ∃ front' found' back', lexemes = front' ++ found' :: back' ∧
      front'.map Lexeme.token = front.map Lexeme.token ∧
      found'.token = found.token ∧ (back ≠ [] → back' ≠ []) := by
  obtain ⟨tail, begins⟩ := begins
  rw [List.map_append, List.map_cons, List.append_assoc, List.cons_append] at begins
  obtain ⟨front', rest, rfl, same, hr⟩ := List.map_eq_append_iff.mp begins.symm
  obtain ⟨found', back', rfl, found_eq, hb⟩ := List.map_eq_cons_iff.mp hr
  refine ⟨front', found', back', rfl, same, found_eq, fun more => ?_⟩
  rintro rfl
  exact more (List.map_eq_nil_iff.mp (List.append_eq_nil_iff.mp hb.symm).1)

end

namespace Expr

variable {text other : String} {front front' back : List Lexeme} {found found' : Lexeme} {fault : Fault}

/-- The reader stops alike in a text that starts with the same tokens, if there is one more of them in
case it has to be read. -/
theorem StopsAt.of_same_tokens {last : Cursor} (h : StopsAt text front found fault)
    (munched : (Cursor.ofString other).Munches (front' ++ found' :: back) last)
    (same : front'.map Lexeme.token = front.map Lexeme.token) (found_eq : found'.token = found.token)
    (ready : fault.peeked = true ∨ back ≠ []) : StopsAt other front' found' fault := by
  cases h with
  | @intro _ _ slot _ _ awaits wrong _ =>
    obtain ⟨middle, first, others⟩ := Cursor.munches_append_iff.mp munched
    obtain ⟨next, scanned, -, behind⟩ := Cursor.munches_cons_iff.mp others
    refine .intro first scanned (same ▸ awaits) (found_eq ▸ wrong) ?_
    rw [← (Slot.fault?_eq_some_iff.mp wrong).peeked_eq_peeks]
    refine ready.imp_right fun more => ?_
    obtain ⟨lexeme, others, rfl⟩ := List.exists_cons_of_ne_nil more
    obtain ⟨next', hs, -⟩ := Cursor.munches_cons_iff.mp behind
    exact ⟨lexeme, next', hs⟩

/-- The token that an error of a text is about is the one with its index, and the reader stops at it. -/
theorem stopsAt_of_getElem? {lexemes : List Lexeme} {index : Nat} (read : tokenize text = .ok lexemes)
    (h : parse text = .error (fault.about found)) (hi : lexemes[index]? = some found) :
    ∃ front back, lexemes = front ++ found :: back ∧ front.length = index ∧
      StopsAt text front found fault := by
  obtain ⟨e, -, same⟩ | ⟨front, found', fault', stopped, same⟩ := exists_stopsAt_of_parse h
  · exact absurd same (fault.about_ne_lexical found e)
  · obtain rfl := Fault.eq_of_about_eq same
    have span : found.span = found'.span := by simpa using congrArg ParseError.span same
    obtain ⟨last, munched, blanks⟩ := Cursor.tokens_eq_ok_iff_munches.mp read
    obtain ⟨-, starts, -⟩ := munched.starts
    obtain ⟨first, scanned, -, -, -⟩ := id stopped
    rcases first.shown_cases scanned munched (Cursor.atEnd_of_blanks blanks) with ⟨rfl, rfl⟩ | ⟨back, rfl, -⟩
    · -- the end of the text starts behind all its lexemes
      have before := (starts found (List.mem_of_getElem? hi)).2
      have behind := (Cursor.column_of_scan scanned).1
      rw [span] at before
      omega
    · have here : (front ++ found' :: back)[front.length]? = some found' := by simp
      obtain rfl := munched.index_eq hi here span
      obtain rfl := Option.some.inj (hi.symm.trans here)
      exact ⟨front, back, rfl, rfl, stopped⟩

end Expr

/-! ### Which error is reported -/

/-- The text has this lexical error behind these lexemes. -/
def FailsAfter (text : String) (good : List Lexeme) (e : LexicalError) : Prop :=
  ∃ last next, (Cursor.ofString text).Munches good last ∧ last.scan = (.error e, next)

theorem tokenize_eq_error_iff {text : String} {e : LexicalError} :
    tokenize text = .error e ↔ ∃ good, FailsAfter text good e :=
  Cursor.tokens_eq_error_iff_munches

/-- The text has an error of the grammar that is found while `count` lexemes last: before the last of
them, or at it by looking at it. -/
def FailsWithin (count : Nat) (text : String) (lexemes : List Lexeme) (fault : Fault) (index : Nat)
    (found : Lexeme) : Prop :=
  Expr.parse text = .error (fault.about found) ∧ lexemes[index]? = some found ∧
    (index + 1 < count ∨ index + 1 = count ∧ fault.peeked = true)

section

variable {input text : String} {good lexemes : List Lexeme} {e : LexicalError}

/-- An error that is found while the common lexemes last is found in both texts. -/
theorem FailsWithin.parse_eq {fault : Fault} {index : Nat} {found : Lexeme}
    (h : FailsWithin good.length text lexemes fault index found) (failed : FailsAfter input good e)
    (read : tokenize text = .ok lexemes) (begins : good.map Lexeme.token <+: lexemes.map Lexeme.token) :
    ∃ found', good[index]? = some found' ∧ found'.token = found.token ∧
      Expr.parse input = .error (fault.about found') := by
  obtain ⟨refused, hi, early⟩ := h
  obtain ⟨last, next, munched, -⟩ := failed
  obtain ⟨front, back, split, rfl, stopped⟩ := Expr.stopsAt_of_getElem? read refused hi
  obtain ⟨front', found', back', rfl, same, found_eq⟩ := exists_split_of_longer begins split (by omega)
  have long : front'.length = front.length := by simpa using congrArg List.length same
  have ready : fault.peeked = true ∨ back' ≠ [] := by
    refine early.symm.imp And.right fun lt => ?_
    rintro rfl
    simp [long] at lt
  have here := stopped.of_same_tokens munched same found_eq ready
  exact ⟨found', by simp [← long], found_eq, here.parse_eq⟩

/-- Without such an error the lexical error is the one that is found. -/
theorem parse_eq_lexical (failed : FailsAfter input good e) (read : tokenize text = .ok lexemes)
    (begins : good.map Lexeme.token <+: lexemes.map Lexeme.token)
    (none : ∀ fault index found, ¬ FailsWithin good.length text lexemes fault index found) :
    Expr.parse input = .error (.lexical e) := by
  have tokens := tokenize_eq_error_iff.mpr ⟨good, failed⟩
  obtain ⟨last, next, munched, hs⟩ := failed
  cases h : Expr.parse input with
  | ok tree =>
    obtain ⟨others, ht, -⟩ := Expr.parse_eq_ok_iff.mp h
    cases tokens.symm.trans ht
  | error err =>
    obtain ⟨e', ht, rfl⟩ | ⟨front, found, fault, stopped, rfl⟩ := Expr.exists_stopsAt_of_parse h
    · rw [Except.error.inj (tokens.symm.trans ht)]
    · -- the wrong token is among the lexemes in front of the error, since none is behind them
      obtain ⟨first, scanned, -, wrong, ready⟩ := id stopped
      rcases first.shown_cases scanned munched (Cursor.atEnd_of_error hs) with
        ⟨rfl, rfl⟩ | ⟨back, rfl, behind⟩
      · cases hs.symm.trans scanned
      · have ready : fault.peeked = true ∨ back ≠ [] := by
          rw [(Slot.fault?_eq_some_iff.mp wrong).peeked_eq_peeks]
          refine ready.imp_right ?_
          -- if it was the last lexeme, the next one cannot be read
          rintro ⟨lexeme, after, more⟩ rfl
          cases behind
          cases hs.symm.trans more
        obtain ⟨front', found', back', rfl, same, found_eq, longer⟩ := exists_split_of_shorter begins
        obtain ⟨last', munched', -⟩ := Cursor.tokens_eq_ok_iff_munches.mp read
        have there := stopped.of_same_tokens munched' same found_eq (ready.imp_right longer)
        have long : front'.length = front.length := by simpa using congrArg List.length same
        have early : front'.length + 1 < (front ++ found :: back).length ∨
            front'.length + 1 = (front ++ found :: back).length ∧ fault.peeked = true := by
          cases back with
          | nil => exact .inr ⟨by simp [long], ready.resolve_right (by simp)⟩
          | cons lexeme back => exact .inl (by simp [long])
        exact absurd ⟨there.parse_eq, by simp, early⟩ (none fault front'.length found')

end

/-- A text with a lexical error behind some lexemes, beside one without that starts with the same
tokens: an error of the grammar that is found in the second while those tokens last is found in the
first as well, at the same token; if there is none, the lexical error is found.  So a lexical error that
is reported is the one that the text has, and a text that is read has none. -/
theorem lexical_error_precedence :
    (∀ input good e text lexemes, FailsAfter input good e → tokenize text = .ok lexemes →
      good.map Lexeme.token <+: lexemes.map Lexeme.token →
        (∀ fault index found, FailsWithin good.length text lexemes fault index found →
          ∃ found', good[index]? = some found' ∧ found'.token = found.token ∧
            Expr.parse input = .error (fault.about found')) ∧
        ((∀ fault index found, ¬ FailsWithin good.length text lexemes fault index found) →
          Expr.parse input = .error (.lexical e))) ∧
    (∀ input e, Expr.parse input = .error (.lexical e) → tokenize input = .error e) ∧
    ∀ input tree, Expr.parse input = .ok tree → ∃ lexemes, tokenize input = .ok lexemes := by
  refine ⟨fun input good e text lexemes failed read begins => ⟨fun fault index found h => ?_, fun none => ?_⟩,
    fun input e h => ?_, fun input tree h => ?_⟩
  · exact h.parse_eq failed read begins
  · exact parse_eq_lexical failed read begins none
  · obtain ⟨e', ht, same⟩ | ⟨front, found, fault, -, same⟩ := Expr.exists_stopsAt_of_parse h
    · rw [ht, ParseError.lexical.inj same]
    · exact absurd same.symm (fault.about_ne_lexical found e)
  · obtain ⟨lexemes, ht, -⟩ := Expr.parse_eq_ok_iff.mp h
    exact ⟨lexemes, ht⟩

/-- A number that starts a text is looked at only, and is refused before the question mark behind it.  A
parenthesis that is not expected has to be taken, and then the question mark is refused. -/
theorem questionMark_precedence :
    Expr.parse "1?" = .error (.missingExpression ⟨.integer 1, ⟨0, 1⟩⟩) ∧
      Expr.parse "add)?" = .error (.lexical (.invalidCharacter '?' ⟨4, 5⟩)) := by
  constructor
  · have failed : FailsAfter "1?" [⟨.integer 1, ⟨0, 1⟩⟩] (.invalidCharacter '?' ⟨1, 2⟩) := by
      refine ⟨⟨['?'], 1⟩, ⟨['?'], 1⟩, ?_, by decide +kernel⟩
      exact Cursor.munches_cons_iff.mpr ⟨_, by decide +kernel, by decide, .nil _⟩
    have read : tokenize "1" = .ok [⟨.integer 1, ⟨0, 1⟩⟩] := by decide +kernel
    have within : FailsWithin 1 "1" [⟨.integer 1, ⟨0, 1⟩⟩] .missingExpression 0 ⟨.integer 1, ⟨0, 1⟩⟩ :=
      ⟨by decide +kernel, rfl, .inr ⟨rfl, rfl⟩⟩
    obtain ⟨found, first, -, refused⟩ :=
      (lexical_error_precedence.1 _ _ _ _ _ failed read (List.prefix_refl _)).1 _ _ _ within
    obtain rfl := Option.some.inj first
    exact refused
  · have failed : FailsAfter "add)?" [⟨.word "add", ⟨0, 3⟩⟩, ⟨.closeParen, ⟨3, 4⟩⟩]
        (.invalidCharacter '?' ⟨4, 5⟩) := by
      refine ⟨⟨['?'], 4⟩, ⟨['?'], 4⟩, ?_, by decide +kernel⟩
      refine Cursor.munches_cons_iff.mpr ⟨⟨[')', '?'], 3⟩, by decide +kernel, by decide, ?_⟩
      exact Cursor.munches_cons_iff.mpr ⟨_, by decide +kernel, by decide, .nil _⟩
    have read : tokenize "add)" = .ok [⟨.word "add", ⟨0, 3⟩⟩, ⟨.closeParen, ⟨3, 4⟩⟩] := by decide +kernel
    have refused : Expr.parse "add)" = .error (.unexpectedToken "(" ⟨.closeParen, ⟨3, 4⟩⟩) := by
      decide +kernel
    refine (lexical_error_precedence.1 _ _ _ _ _ failed read (List.prefix_refl _)).2 ?_
    rintro fault index found ⟨h, hi, early⟩
    have same : fault.about found = (Fault.unexpectedToken "(").about ⟨.closeParen, ⟨3, 4⟩⟩ :=
      Except.error.inj (h.symm.trans refused)
    obtain rfl := Fault.eq_of_about_eq same
    obtain rfl := (ParseError.unexpectedToken.inj same).2
    rcases early with lt | ⟨-, peeked⟩
    · obtain rfl : index = 0 := Nat.lt_one_iff.mp (Nat.lt_of_succ_lt_succ lt)
      cases hi
    · revert peeked
      decide

end LetArith
