import LetArith.Proofs.Agenda
import LetArith.Proofs.Parsing

/-!
# LetArith.Proofs.Refusing — what an error of the reader says

What the reader does behind a reserved word is to read the agenda of that word.  It stops at the first
slot in which something is wrong with the token, or where it takes a token and none can be read behind
it.

* `ParseM.expression_eq_read`, `ParseM.program_eq_read`: the reader in terms of agendas.
* `ParseM.refusal_agenda`: an error is in the first piece of an agenda that cannot be read.
* `ParseM.refusal_program`: an error of a program is a lexical one, or about a token that is wrong in
  its slot.
-/

namespace LetArith

open Grammar

namespace ParseM

/-! ### Reading agendas -/

/-- Reads an expression or an operand, with `inner` for expressions. -/
def readPart (inner : Scope → Nat → ParseM Expr) : Symbol → Scope → Nat → ParseM Expr
  | .expression => inner
  | .operand => operand inner

/-- Reads what is on the agenda, with `inner` for expressions. -/
def read (inner : Scope → Nat → ParseM Expr) : Agenda → ParseM Expr
  | .done e => pure e
  | .sign sign next => do
    let _ ← expect sign.token.kind
    read inner next
  | .name scope next => do
    let name ← newName scope
    read inner (next name)
  | .bound name operand next => do
    recordBound name operand
    read inner next
  | .part symbol scope place next => do
    let e ← readPart inner symbol scope place
    read inner (next e)

theorem application_eq_read (inner : Scope → Nat → ParseM Expr) (op : Operator) (scope : Scope)
    (place : Nat) : application inner op scope place =
      expect .word >>= fun _ => read inner (.after scope place (.operator op)) := rfl

theorem letBinding_eq_read (inner : Scope → Nat → ParseM Expr) (scope : Scope) (place : Nat) :
    letBinding inner scope place = expect .word >>= fun _ => read inner (.after scope place .letIn) := rfl

/-- Behind a reserved word its agenda is read. -/
theorem expression_eq_read (levels : Nat) (scope : Scope) (place : Nat) :
    expression (levels + 1) scope place = peekWord >>= fun found =>
      match Keyword.ofText? found.1 with
      | some keyword => expect .word >>= fun _ => read (expression levels) (.after scope place keyword)
      | none => throw (.unknownOperation found.1 found.2) := by
  rw [expression]
  congr 1
  funext ⟨word, span⟩
  dsimp only
  split
  · next op hk => simp only [hk, application_eq_read]
  · next hk => simp only [hk, letBinding_eq_read]
  · next hk => simp only [hk]

theorem program_eq_read : program = peek >>= fun first =>
    if first.token.kind = .word then read (expression maxDepth) .program
    else throw (.missingExpression first) := rfl

/-! ### What an error says -/

/-- Reading on from `a` ends with this error: a token is taken and none can be read behind it, or
something is wrong with a token in its slot.  A reader that takes the token to decide on it has read the
next one already. -/
inductive Refusal (limit : Option Nat) (awaits : List Token → Slot → Prop) (a : Lookahead) : ParseError → Prop
  | lexical {front : List Lexeme} {b next : Lookahead} {e : LexicalError} (taken : a.Reads front b)
      (failed : b.advance = (.error e, next)) : Refusal limit awaits a (.lexical e)
  | fault {front : List Lexeme} {b : Lookahead} {slot : Slot} {fault : Fault} (taken : a.Reads front b)
      (here : awaits (front.map Lexeme.token) slot) (wrong : slot.fault? limit b.held.token = some fault)
      (ready : slot.peeks = true ∨ ∃ c, b.advance = (.ok b.held, c)) :
      Refusal limit awaits a (fault.about b.held)

section

variable {α : Type} {limit : Option Nat} {awaits awaits' : List Token → Slot → Prop} {a b : Lookahead}
  {s s' : ParseState} {err : ParseError}

/-- An error behind tokens that were taken. -/
theorem Refusal.behind {front : List Lexeme} (taken : a.Reads front b) (h : Refusal limit awaits b err)
    (on : ∀ {back slot}, awaits back slot → awaits' (front.map Lexeme.token ++ back) slot) :
    Refusal limit awaits' a err := by
  cases h with
  | lexical taken' failed => exact .lexical (taken.append taken') failed
  | fault taken' here wrong ready =>
    exact .fault (taken.append taken') (List.map_append ▸ on here) wrong ready

theorem throw_eq_error_iff {e : ParseError} : (throw e : ParseM α) s = .error err s' ↔ e = err ∧ s = s' := by
  show EStateM.Result.error e s = .error err s' ↔ _
  simp

theorem advance_of_error (h : advance s = .error err s') :
    ∃ e next, s.ahead.advance = (.error e, next) ∧ err = .lexical e := by
  unfold advance at h
  split at h
  · cases h
  · next e next heq =>
    cases h
    exact ⟨e, next, heq, rfl⟩

/-- A step that takes a token and then decides: there is none behind it, or the step decides against it. -/
theorem taking_of_error {f : Lexeme → ParseM α} (h : (advance >>= f) s = .error err s') :
    (∃ e next, s.ahead.advance = (.error e, next) ∧ err = .lexical e) ∨
      ∃ c t, s.ahead.advance = (.ok s.ahead.held, c) ∧ f s.ahead.held t = .error err s' := by
  rcases bind_eq_error_iff.mp h with h | ⟨found, t, ha, h⟩
  · exact .inl (advance_of_error h)
  · have taken := advance_of_ok ha
    obtain rfl := Lookahead.held_advance taken
    exact .inr ⟨_, t, taken, h⟩

theorem refusal_sign {level : Nat} {sign : Sign} (next : Agenda)
    (h : expect sign.token.kind s = .error err s') :
    Refusal limit ((Agenda.sign sign next).Awaits limit level) s.ahead err := by
  rcases taking_of_error h with ⟨e, next, failed, rfl⟩ | ⟨c, t, taken, h⟩
  · exact .lexical (.nil _) failed
  · split at h
    · cases h
    · next other =>
      obtain ⟨rfl, -⟩ := throw_eq_error_iff.mp h
      have wrong : (Slot.sign sign).fault? limit s.ahead.held.token =
          some (.unexpectedToken sign.token.kind.text) := by simp only [Slot.fault?, if_neg other]
      exact .fault (.nil _) .sign wrong (.inr ⟨c, taken⟩)

theorem refusal_name {level : Nat} {scope : Scope} (next : String → Agenda)
    (h : newName scope s = .error err s') :
    Refusal limit ((Agenda.name scope next).Awaits limit level) s.ahead err := by
  rcases taking_of_error h with ⟨e, next, failed, rfl⟩ | ⟨c, t, taken, h⟩
  · exact .lexical (.nil _) failed
  · -- whatever was decided, it is what is wrong with the token in a slot for a name
    have refused {fault : Fault} (wrong : (Slot.name scope).fault? limit s.ahead.held.token = some fault) :
        Refusal limit ((Agenda.name scope next).Awaits limit level) s.ahead (fault.about s.ahead.held) :=
      .fault (.nil _) .name wrong (.inr ⟨c, taken⟩)
    cases ht : s.ahead.held.token with
    | word name =>
      simp only [ht] at h
      split at h
      · next reserved =>
        obtain ⟨rfl, -⟩ := throw_eq_error_iff.mp h
        have found := @refused .reservedName (by simp [ht, Slot.fault?, reserved])
        rwa [Fault.about, ht] at found
      · next free =>
        split at h
        · next visible =>
          obtain ⟨rfl, -⟩ := throw_eq_error_iff.mp h
          have found := @refused .redeclaration (by simp [ht, Slot.fault?, free, visible])
          rwa [Fault.about, ht] at found
        · cases h
    | integer _ | openParen | closeParen | comma | endOfInput =>
      rw [ht] at h
      obtain ⟨rfl, -⟩ := throw_eq_error_iff.mp h
      exact @refused (.unexpectedToken "variable name") (by simp [ht, Slot.fault?])

theorem peekWord_of_error (h : peekWord s = .error err s') :
    (∀ text, s.ahead.held.token ≠ .word text) ∧ err = .unexpectedToken Keyword.listing s.ahead.held := by
  obtain h | ⟨found, t, hp, h⟩ := bind_eq_error_iff.mp h
  · cases h
  · obtain ⟨rfl, rfl⟩ := peek_eq_ok_iff.mp hp
    cases ht : s.ahead.held.token with
    | word text =>
      rw [ht] at h
      cases h
    | integer _ | openParen | closeParen | comma | endOfInput =>
      rw [ht] at h
      obtain ⟨rfl, -⟩ := throw_eq_error_iff.mp h
      exact ⟨by simp, rfl⟩

end

/-- An error in a part is a lexical one, or about a token in a slot within the part. -/
def Refuses (limit : Option Nat) (symbol : Symbol) (level : Nat) (read : Scope → Nat → ParseM Expr) : Prop :=
  ∀ scope place (next : Expr → Agenda) s err s', read scope place s = .error err s' →
    Refusal limit ((Agenda.part symbol scope place next).Awaits limit level) s.ahead err

section

variable {limit : Option Nat} {level : Nat} {inner : Scope → Nat → ParseM Expr} {s s' : ParseState}
  {err : ParseError}

/-- A wrong token in the slot of a part is one ahead of it. -/
theorem refusal_part {symbol : Symbol} {scope : Scope} {place : Nat} (next : Expr → Agenda)
    {a : Lookahead} (fault : Fault)
    (wrong : (Slot.part symbol scope place level).fault? limit a.held.token = some fault) :
    Refusal limit ((Agenda.part symbol scope place next).Awaits limit level) a (fault.about a.held) :=
  .fault (.nil a) .part wrong (.inl rfl)

theorem refuses_operand (hi : Refuses limit .expression level inner) :
    Refuses limit .operand level (operand inner) := by
  intro scope place next s err s' h
  obtain h | ⟨found, t, hp, h⟩ := bind_eq_error_iff.mp h
  · cases h
  · obtain ⟨rfl, rfl⟩ := peek_eq_ok_iff.mp hp
    cases ht : s.ahead.held.token with
    | integer value =>
      rw [ht] at h
      rcases taking_of_error h with ⟨e, next, failed, rfl⟩ | ⟨c, t, taken, h⟩
      · exact .lexical (.nil _) failed
      · cases h
    | word text =>
      simp only [ht] at h
      split at h
      · next reserved =>
        cases hi _ _ next _ _ _ h with
        | lexical taken failed => exact .lexical taken failed
        | fault taken here wrong ready =>
          rcases here.operand_of_expression with ⟨nothing, rfl⟩ | within
          · -- nothing was taken: the expression is wrong from its first word on, and so is the operand
            obtain rfl := List.map_eq_nil_iff.mp nothing
            cases taken
            exact refusal_part next _ (by simpa [ht, Slot.fault?, reserved] using wrong)
          · exact .fault taken within wrong ready
      · next free =>
        cases visible : scope.lookup? text with
        | some shared =>
          rw [visible] at h
          rcases taking_of_error h with ⟨e, next, failed, rfl⟩ | ⟨c, t, taken, h⟩
          · exact .lexical (.nil _) failed
          · cases h
        | none =>
          rw [visible] at h
          obtain ⟨rfl, -⟩ := throw_eq_error_iff.mp h
          have wrong : (Slot.part .operand scope place level).fault? limit s.ahead.held.token =
              some .unboundVariable := by
            simp [ht, Slot.fault?, free, Scope.contains_eq_isSome, visible]
          have found := refusal_part next .unboundVariable wrong
          rwa [Fault.about, ht] at found
    | openParen | closeParen | comma | endOfInput =>
      rw [ht] at h
      obtain ⟨rfl, -⟩ := throw_eq_error_iff.mp h
      exact refusal_part next .invalidOperand (by simp [ht, Slot.fault?])

/-- By induction on the agenda: an error is in the first piece that cannot be read. -/
theorem refusal_agenda (hi : Refuses limit .expression level inner)
    (sound : Sound limit .expression level inner) {agenda : Agenda}
    (h : read inner agenda s = .error err s') :
    Refusal limit (agenda.Awaits limit level) s.ahead err := by
  induction agenda generalizing s with
  | done e => cases h
  | sign sign next ih =>
    rcases bind_eq_error_iff.mp h with h | ⟨found, t, ha, h⟩
    · exact refusal_sign next h
    · obtain ⟨taken, kind⟩ := expect_of_ok ha
      have same := Sign.kind_eq_iff.mp kind
      refine (ih h).behind (Lookahead.reads_singleton taken) fun others => ?_
      rw [List.map_singleton, same]
      exact .signThen others
  | name scope next ih =>
    rcases bind_eq_error_iff.mp h with h | ⟨name, t, ha, h⟩
    · exact refusal_name next h
    · obtain ⟨found, taken, same, free, fresh⟩ := newName_of_ok ha
      refine (ih name h).behind (Lookahead.reads_singleton taken) fun others => ?_
      rw [List.map_singleton, same]
      exact .nameThen free fresh others
  | bound name operand next ih =>
    rcases bind_eq_error_iff.mp h with h | ⟨u, t, ha, h⟩
    · cases h
    · have found := ih h
      rw [recordBound_of_ok ha] at found
      exact found.behind (.nil _) .boundThen
  | part symbol scope place next ih =>
    -- an error behind the part is an error behind its tokens, so that both facts about parts are needed
    have here : Refuses limit symbol level (readPart inner symbol) ∧
        Sound limit symbol level (readPart inner symbol) := by
      cases symbol with
      | expression => exact ⟨hi, sound⟩
      | operand => exact ⟨refuses_operand hi, sound_operand sound⟩
    rcases bind_eq_error_iff.mp h with h | ⟨d, t, ha, h⟩
    · exact here.1 _ _ next _ _ _ h
    · obtain ⟨lexemes, taken, derived⟩ := here.2 _ _ _ _ _ ha
      exact (ih d h).behind taken (.partThen derived)

/-- By induction on the levels that are left. -/
theorem refuses_expression {n : Nat} : ∀ {levels level : Nat}, level + levels = n →
    Refuses (some n) .expression level (expression levels)
  | 0, level, hn => by
    intro scope place next s err s' h
    -- no level is left: every word is too deep, whether it is reserved or not
    obtain rfl : level = n := hn
    rcases bind_eq_error_iff.mp h with h | ⟨⟨text, span⟩, t, hp, h⟩
    · obtain ⟨noWord, rfl⟩ := peekWord_of_error h
      exact refusal_part next (.unexpectedToken _) (Slot.expressionFault?_of_ne_word noWord)
    · obtain ⟨held, rfl⟩ := peekWord_of_ok hp
      obtain ⟨rfl, -⟩ := throw_eq_error_iff.mp h
      have wrong : Slot.expressionFault? (some level) level s.ahead.held.token = some .tooDeep := by
        simp [held, Slot.expressionFault?]
      have found := @refusal_part _ _ .expression scope place next _ .tooDeep wrong
      rwa [Fault.about, held] at found
  | levels + 1, level, hn => by
    intro scope place next s err s' h
    have within : ∀ m ∈ some n, level < m := by
      intro m hm
      obtain rfl := Option.some.inj hm
      omega
    rw [expression_eq_read] at h
    rcases bind_eq_error_iff.mp h with h | ⟨⟨text, span⟩, t, hp, h⟩
    · obtain ⟨noWord, rfl⟩ := peekWord_of_error h
      exact refusal_part next (.unexpectedToken _) (Slot.expressionFault?_of_ne_word noWord)
    · obtain ⟨held, rfl⟩ := peekWord_of_ok hp
      cases hk : Keyword.ofText? text with
      | none =>
        simp only [hk] at h
        obtain ⟨rfl, -⟩ := throw_eq_error_iff.mp h
        have wrong : Slot.expressionFault? (some n) level s.ahead.held.token = some .unknownOperation := by
          simp [held, hk, Slot.expressionFault?]
          omega
        have found := @refusal_part _ _ .expression scope place next _ .unknownOperation wrong
        rwa [Fault.about, held] at found
      | some keyword =>
        simp only [hk] at h
        obtain rfl := Keyword.ofText?_eq_some_iff.mp hk
        rcases bind_eq_error_iff.mp h with h | ⟨found, t, ha, h⟩
        · rcases taking_of_error h with ⟨e, next, failed, rfl⟩ | ⟨c, t, taken, h⟩
          · exact .lexical (.nil _) failed
          · rw [if_pos (by rw [held]; rfl)] at h
            cases h
        · obtain ⟨taken, -⟩ := expect_of_ok ha
          obtain rfl := Lookahead.held_advance taken
          -- the word was taken, so that the error is behind it, one level deeper
          have deeper : level + 1 + levels = n := by omega
          have behind := refusal_agenda (refuses_expression deeper) (sound_expression deeper) h
          refine behind.behind (Lookahead.reads_singleton taken) fun others => ?_
          rw [List.map_singleton, held]
          exact .inside within others

/-- An error of a whole program is a lexical one, or about a token in a slot within the program. -/
theorem refusal_program (h : program s = .error err s') :
    Refusal (some maxDepth) (Grammar.Awaits (some maxDepth)) s.ahead err := by
  rw [program_eq_read] at h
  obtain h | ⟨first, t, hp, h⟩ := bind_eq_error_iff.mp h
  · cases h
  · obtain ⟨rfl, rfl⟩ := peek_eq_ok_iff.mp hp
    split at h
    · next word =>
      have sound := sound_expression (Nat.zero_add maxDepth)
      cases refusal_agenda (refuses_expression (Nat.zero_add maxDepth)) sound h with
      | lexical taken failed => exact .lexical taken failed
      | fault taken here wrong ready =>
        rcases Awaits.of_agenda here with ⟨nothing, rfl⟩ | here
        · obtain rfl := List.map_eq_nil_iff.mp nothing
          cases taken
          exact .fault (.nil _) .start (by simpa only [Slot.fault?, if_pos word] using wrong) (.inl rfl)
        · exact .fault taken here wrong ready
    · next other =>
      obtain ⟨rfl, -⟩ := throw_eq_error_iff.mp h
      have wrong : Slot.start.fault? (some maxDepth) s.ahead.held.token = some .missingExpression := by
        simp only [Slot.fault?, if_neg other]
      exact .fault (.nil _) .start wrong (.inl rfl)

end

end ParseM
end LetArith
