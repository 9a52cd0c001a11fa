import LetArith.Proofs.Agenda
import LetArith.Proofs.Printing
import Mathlib.Data.Set.Finite.Basic
import Mathlib.Data.Set.Finite.Range

/-!
# LetArith.Proofs.Viability — which tokens can be gone on with

Tokens are viable if they are the first ones of some program.  The nesting limit plays no part here.  A
token may follow viable tokens if they are still viable with it; the end of the text may if they are a
whole program.

* `Agenda.exists_fills`: every agenda can be filled, whatever was read before.
* `Agenda.Awaits.exists_fills`: so it can be filled from any slot on, starting with any token that the
  slot admits.
* `Agenda.Awaits.fault?_of_fills`: and if it is filled, nothing is wrong with the token at the slot.
* `Awaits.mayFollow_iff_fault?`: hence a token may follow exactly if nothing is wrong with it.
-/

namespace LetArith

namespace Token

/-- Every word among the tokens is a name. -/
def Lexable (tokens : List Token) : Prop := ∀ text, .word text ∈ tokens → IsName text

theorem lexable_nil : Lexable [] := fun _ h => absurd h List.not_mem_nil

theorem lexable_cons_iff {token : Token} {tokens : List Token} :
    Lexable (token :: tokens) ↔ (∀ text, token = .word text → IsName text) ∧ Lexable tokens := by
  simp only [Lexable, List.mem_cons, or_imp, forall_and, eq_comm]

theorem lexable_append_iff {front back : List Token} :
    Lexable (front ++ back) ↔ Lexable front ∧ Lexable back := by
  simp only [Lexable, List.mem_append, or_imp, forall_and]

end Token

namespace Grammar

open Token

/-! ### New names -/

/-- A row of the same letter is a name, and not reserved. -/
theorem isName_replicate (n : Nat) :
    IsName (String.ofList (List.replicate (n + 1) 'x')) ∧
      Keyword.ofText? (String.ofList (List.replicate (n + 1) 'x')) = none := by
  constructor
  · refine ⟨'x', List.replicate n 'x', by simp [List.replicate_succ], rfl, fun c hc => ?_⟩
    obtain rfl := List.eq_of_mem_replicate hc
    rfl
  · cases h : Keyword.ofText? (String.ofList (List.replicate (n + 1) 'x')) with
    | none => rfl
    | some keyword =>
      have same : keyword.text.toList.head? = some 'x' := by
        rw [Keyword.ofText?_eq_some_iff.mp h]
        simp [List.replicate_succ]
      revert same
      rcases keyword with (_ | _ | _ | _) | _ <;> decide

/-- There is always a name that is not visible. -/
theorem exists_fresh (scope : Scope) :
    ∃ name, IsName name ∧ Keyword.ofText? name = none ∧ scope.contains name = false := by
  have injective : Function.Injective fun n : Nat => String.ofList (List.replicate (n + 1) 'x') := by
    intro m n h
    have same := congrArg (fun text : String => text.toList.length) h
    simpa using same
  obtain ⟨name, ⟨n, rfl⟩, other⟩ :=
    (Set.infinite_range_of_injective injective).exists_notMem_finite
      (scope.bindings.map Binding.name).finite_toSet
  refine ⟨_, (isName_replicate n).1, (isName_replicate n).2, ?_⟩
  rw [Scope.contains, List.any_eq_false]
  intro binding hb same
  exact other (List.mem_map.mpr ⟨binding, hb, eq_of_beq same⟩)

/-! ### What a slot admits -/

namespace Slot

/-- The token may stand before the slot. -/
inductive Admits : Slot → Token → Prop
  | start (keyword : Keyword) : Admits .start (.word keyword.text)
  | keyword (symbol : Symbol) (scope : Scope) (place level : Nat) (keyword : Keyword) :
      Admits (.part symbol scope place level) (.word keyword.text)
  | integer (scope : Scope) (place level : Nat) (value : Int32) :
      Admits (.part .operand scope place level) (.integer value)
  | known {scope : Scope} {text : String} {shared : Operand} (free : Keyword.ofText? text = none)
      (visible : scope.lookup? text = some shared) (place level : Nat) :
      Admits (.part .operand scope place level) (.word text)
  | name {scope : Scope} {text : String} (free : Keyword.ofText? text = none)
      (fresh : scope.contains text = false) :
      Admits (.name scope) (.word text)
  | sign (sign : Sign) : Admits (.sign sign) sign.token

theorem expressionFault?_none_iff {level : Nat} {token : Token} :
    expressionFault? none level token = none ↔ ∃ keyword, token = .word (Keyword.text keyword) := by
  constructor
  · intro h
    cases token with
    | word text =>
      cases hk : Keyword.ofText? text with
      | none => simp [expressionFault?, hk] at h
      | some keyword => exact ⟨keyword, by rw [Keyword.ofText?_eq_some_iff.mp hk]⟩
    | integer _ | openParen | closeParen | comma | endOfInput => simp [expressionFault?] at h
  · rintro ⟨keyword, rfl⟩
    simp [expressionFault?]

/-- Nothing is wrong with a reserved word within the limit. -/
theorem expressionFault?_keyword {limit : Option Nat} {level : Nat} (within : ∀ n ∈ limit, level < n)
    (keyword : Keyword) : expressionFault? limit level (.word keyword.text) = none := by
  have shallow : limit.any (· ≤ level) = false := by
    cases limit with
    | none => rfl
    | some n => simpa using within n rfl
  simp [expressionFault?, shallow]

/-- Without the limit, nothing is wrong with what a slot admits, and with nothing else. -/
theorem fault?_none_iff {slot : Slot} {token : Token} :
    slot.fault? none token = none ↔ slot.Admits token := by
  constructor
  · intro h
    cases slot with
    | start =>
      simp only [fault?] at h
      split at h
      · obtain ⟨keyword, rfl⟩ := expressionFault?_none_iff.mp h
        exact .start keyword
      · cases h
    | part symbol scope place level =>
      cases symbol with
      | expression =>
        obtain ⟨keyword, rfl⟩ := expressionFault?_none_iff.mp h
        exact .keyword .expression scope place level keyword
      | operand =>
        cases token with
        | integer value => exact .integer scope place level value
        | word text =>
          cases hk : Keyword.ofText? text with
          | some keyword =>
            rw [← Keyword.ofText?_eq_some_iff.mp hk]
            exact .keyword .operand scope place level keyword
          | none =>
            cases hv : scope.lookup? text with
            | some shared => exact .known hk hv place level
            | none => simp [fault?, hk, Scope.contains_eq_isSome, hv] at h
        | openParen | closeParen | comma | endOfInput => simp [fault?] at h
    | name scope =>
      cases token with
      | word text =>
        cases hk : Keyword.ofText? text with
        | some keyword => simp [fault?, hk] at h
        | none =>
          cases hc : scope.contains text with
          | true => simp [fault?, hk, hc] at h
          | false => exact .name hk hc
      | integer _ | openParen | closeParen | comma | endOfInput => simp [fault?] at h
    | sign sign =>
      simp only [fault?] at h
      split at h
      · next same =>
        obtain rfl := Sign.kind_eq_iff.mp same
        exact .sign sign
      · cases h
  · intro h
    cases h with
    | start keyword => simp [fault?, Token.kind, expressionFault?]
    | keyword symbol scope place level keyword => cases symbol <;> simp [fault?, expressionFault?]
    | integer scope place level value => rfl
    | known free visible place level => simp [fault?, free, Scope.contains_eq_isSome, visible]
    | name free fresh => simp [fault?, free, fresh]
    | sign sign => simp [fault?]

/-- Every slot admits some token. -/
theorem exists_admits (slot : Slot) :
    ∃ token, slot.Admits token ∧ ∀ text, token = .word text → IsName text := by
  cases slot with
  | start =>
    refine ⟨_, .start .letIn, fun text h => ?_⟩
    cases h
    exact Keyword.isName_text .letIn
  | part symbol scope place level =>
    refine ⟨_, .keyword symbol scope place level .letIn, fun text h => ?_⟩
    cases h
    exact Keyword.isName_text .letIn
  | name scope =>
    obtain ⟨name, isName, free, fresh⟩ := exists_fresh scope
    refine ⟨_, .name free fresh, fun text h => ?_⟩
    cases h
    exact isName
  | sign sign => exact ⟨_, .sign sign, fun text h => absurd h (sign.token_ne_word text)⟩

end Slot

/-! ### Going on -/

namespace Agenda

variable {limit limit' : Option Nat} {level : Nat} {agenda : Agenda} {front : List Token} {slot : Slot}
  {token : Token}

/-- The shortest operand is an integer, and the shortest expression adds two of them. -/
theorem exists_derives (symbol : Symbol) (scope : Scope) (place level : Nat) :
    ∃ tokens e, Derives none symbol scope place level tokens e ∧ Lexable tokens := by
  cases symbol with
  | operand => exact ⟨_, _, .integer 0, fun text h => by simp at h⟩
  | expression =>
    refine ⟨_, _, .application .add (by simp) (.integer 0) (.integer 0), fun text h => ?_⟩
    obtain rfl : text = Operator.add.word := by simpa using h
    exact Keyword.isName_text (.operator .add)

/-- By induction on the agenda, whatever tree each part turns out to be. -/
theorem exists_fills (agenda : Agenda) (level : Nat) :
    ∃ tokens e, agenda.Fills none level tokens e ∧ Lexable tokens := by
  induction agenda with
  | done e => exact ⟨[], e, .done e, lexable_nil⟩
  | sign sign next ih =>
    obtain ⟨tokens, e, h, lexable⟩ := ih
    exact ⟨_, e, .sign h, lexable_cons_iff.mpr ⟨fun text h => absurd h (sign.token_ne_word text), lexable⟩⟩
  | name scope next ih =>
    obtain ⟨name, isName, free, fresh⟩ := exists_fresh scope
    obtain ⟨tokens, e, h, lexable⟩ := ih name
    exact ⟨_, e, .name free fresh h, lexable_cons_iff.mpr ⟨fun text h => Token.word.inj h ▸ isName, lexable⟩⟩
  | bound name operand next ih =>
    obtain ⟨tokens, e, h, lexable⟩ := ih
    exact ⟨tokens, e, .bound h, lexable⟩
  | part symbol scope place next ih =>
    obtain ⟨front, d, first, lexable⟩ := exists_derives symbol scope place level
    obtain ⟨back, e, h, lexable'⟩ := ih d
    exact ⟨_, e, .part first h, lexable_append_iff.mpr ⟨lexable, lexable'⟩⟩

/-- An expression behind its reserved word is an expression, and so an operand. -/
theorem derives_of_fills {scope : Scope} {place : Nat} {keyword : Keyword} {tokens : List Token} {e : Expr}
    (symbol : Symbol) (h : (after scope place keyword).Fills none (level + 1) tokens e) :
    Derives none symbol scope place level (.word keyword.text :: tokens) e := by
  have expression := derives_expression_iff.mpr ⟨by simp, keyword, tokens, rfl, h⟩
  cases symbol with
  | expression => exact expression
  | operand => exact .expression expression

/-- What a slot for a part admits is the first token of such a part. -/
theorem exists_derives_of_admits {symbol : Symbol} {scope : Scope} {place : Nat}
    (h : (Slot.part symbol scope place level).Admits token) :
    ∃ tail e, Derives none symbol scope place level (token :: tail) e ∧ Lexable tail := by
  cases h with
  | keyword symbol scope place level keyword =>
    obtain ⟨tail, e, h, lexable⟩ := (after scope place keyword).exists_fills (level + 1)
    exact ⟨tail, e, derives_of_fills symbol h, lexable⟩
  | integer scope place level value => exact ⟨[], _, .integer value, lexable_nil⟩
  | known free visible place level => exact ⟨[], _, .name free visible, lexable_nil⟩

/-- By induction on the tokens that were read: what a slot admits can be gone on with. -/
theorem Awaits.exists_fills (h : agenda.Awaits limit level front slot) (admits : slot.Admits token) :
    ∃ tail e, agenda.Fills none level (front ++ token :: tail) e ∧ Lexable tail := by
  induction h with
  | @sign level sign next =>
    cases admits
    obtain ⟨tail, e, h, lexable⟩ := next.exists_fills level
    exact ⟨tail, e, .sign h, lexable⟩
  | signThen others ih =>
    obtain ⟨tail, e, h, lexable⟩ := ih admits
    exact ⟨tail, e, .sign h, lexable⟩
  | @name level scope next =>
    cases admits with
    | @name _ text free fresh =>
      obtain ⟨tail, e, h, lexable⟩ := (next text).exists_fills level
      exact ⟨tail, e, .name free fresh h, lexable⟩
  | nameThen free fresh others ih =>
    obtain ⟨tail, e, h, lexable⟩ := ih admits
    exact ⟨tail, e, .name free fresh h, lexable⟩
  | boundThen others ih =>
    obtain ⟨tail, e, h, lexable⟩ := ih admits
    exact ⟨tail, e, .bound h, lexable⟩
  | @part level symbol scope place next =>
    -- the token starts the part, and what is asked for behind the part depends on its tree
    obtain ⟨tail, d, first, lexable⟩ := exists_derives_of_admits admits
    obtain ⟨back, e, h, lexable'⟩ := (next d).exists_fills level
    have whole := Fills.part first h
    exact ⟨tail ++ back, e, by simpa using whole, lexable_append_iff.mpr ⟨lexable, lexable'⟩⟩
  | @inside level symbol scope place next keyword front slot within inner ih =>
    obtain ⟨tail, d, h, lexable⟩ := ih admits
    obtain ⟨back, e, h', lexable'⟩ := (next d).exists_fills level
    have whole := Fills.part (derives_of_fills symbol h) h'
    exact ⟨tail ++ back, e, by simpa using whole, lexable_append_iff.mpr ⟨lexable, lexable'⟩⟩
  | partThen first others ih =>
    -- a part that was read within a limit is one without it
    obtain ⟨tail, e, h, lexable⟩ := ih admits
    exact ⟨tail, e, by simpa using Fills.part first.unlimited h, lexable⟩

/-- Nothing is wrong with the first token of a part. -/
theorem fault?_of_derives {symbol : Symbol} {scope : Scope} {place : Nat} {tokens rest tail : List Token}
    {e : Expr} (h : Derives limit symbol scope place level tokens e)
    (split : tokens ++ rest = token :: tail) :
    (Slot.part symbol scope place level).fault? limit token = none := by
  have expression (h : Derives limit .expression scope place level tokens e) :
      ∃ keyword, token = .word (Keyword.text keyword) ∧ Slot.expressionFault? limit level token = none := by
    obtain ⟨within, keyword, others, rfl, -⟩ := derives_expression_iff.mp h
    obtain ⟨rfl, -⟩ := List.cons_eq_cons.mp split
    exact ⟨keyword, rfl, Slot.expressionFault?_keyword within keyword⟩
  cases symbol with
  | expression =>
    obtain ⟨-, -, fine⟩ := expression h
    exact fine
  | operand =>
    cases h with
    | integer value =>
      obtain ⟨rfl, -⟩ := List.cons_eq_cons.mp split
      rfl
    | name free visible =>
      obtain ⟨rfl, -⟩ := List.cons_eq_cons.mp split
      simp [Slot.fault?, free, Scope.contains_eq_isSome, visible]
    | expression inner =>
      obtain ⟨keyword, rfl, fine⟩ := expression inner
      simpa [Slot.fault?] using fine

/-- What starts with a reserved word is the expression of that word. -/
theorem fills_of_derives {symbol : Symbol} {scope : Scope} {place : Nat} {keyword : Keyword}
    {tokens rest tail : List Token} {e : Expr} (h : Derives limit symbol scope place level tokens e)
    (split : tokens ++ rest = .word keyword.text :: tail) :
    ∃ others, others ++ rest = tail ∧ (after scope place keyword).Fills limit (level + 1) others e := by
  have expression (h : Derives limit .expression scope place level tokens e) :
      ∃ others, others ++ rest = tail ∧ (after scope place keyword).Fills limit (level + 1) others e := by
    obtain ⟨-, keyword', others, rfl, filled⟩ := derives_expression_iff.mp h
    obtain ⟨same, behind⟩ := List.cons_eq_cons.mp split
    obtain rfl := Keyword.text_injective (Token.word.inj same)
    exact ⟨others, behind, filled⟩
  cases symbol with
  | expression => exact expression h
  | operand =>
    cases h with
    | integer value => cases split
    | name free visible =>
      obtain ⟨same, -⟩ := List.cons_eq_cons.mp split
      rw [Token.word.inj same, Keyword.ofText?_text] at free
      cases free
    | expression inner => exact expression inner

/-- By induction on the tokens that were read: wherever an agenda is filled through a slot, nothing is
wrong with the token there.  The parts that were read are those of the other filling, since no part is
the beginning of another. -/
theorem Awaits.fault?_of_fills (h : agenda.Awaits limit level front slot) :
    ∀ {tokens rest tail : List Token} {e : Expr}, agenda.Fills limit' level tokens e →
      tokens ++ rest = front ++ token :: tail → slot.fault? limit' token = none := by
  induction h with
  | sign =>
    intro tokens rest tail e filled split
    obtain ⟨others, rfl, -⟩ := fills_sign_iff.mp filled
    obtain ⟨rfl, -⟩ := List.cons_eq_cons.mp split
    simp [Slot.fault?]
  | signThen others ih =>
    intro tokens rest tail e filled split
    obtain ⟨others, rfl, behind⟩ := fills_sign_iff.mp filled
    exact ih behind (List.cons_eq_cons.mp split).2
  | name =>
    intro tokens rest tail e filled split
    obtain ⟨name, others, rfl, free, fresh, -⟩ := fills_name_iff.mp filled
    obtain ⟨rfl, -⟩ := List.cons_eq_cons.mp split
    simp [Slot.fault?, free, fresh]
  | nameThen free fresh others ih =>
    intro tokens rest tail e filled split
    obtain ⟨name, others, rfl, -, -, behind⟩ := fills_name_iff.mp filled
    obtain ⟨same, later⟩ := List.cons_eq_cons.mp split
    obtain rfl := Token.word.inj same
    exact ih behind later
  | boundThen others ih =>
    intro tokens rest tail e filled split
    exact ih (fills_bound_iff.mp filled) split
  | part =>
    intro tokens rest tail e filled split
    obtain ⟨first, back, d, rfl, derived, -⟩ := fills_part_iff.mp filled
    rw [List.append_assoc] at split
    exact fault?_of_derives derived split
  | inside within inner ih =>
    intro tokens rest tail e filled split
    obtain ⟨first, back, d, rfl, derived, -⟩ := fills_part_iff.mp filled
    rw [List.append_assoc] at split
    -- both have the reserved word that was read, so that the other part is what its agenda asks for
    obtain ⟨others, behind, filled⟩ := fills_of_derives derived split
    exact ih filled behind
  | partThen first others ih =>
    intro tokens rest tail e filled split
    obtain ⟨front', back', d', rfl, derived, behind⟩ := fills_part_iff.mp filled
    rw [List.append_assoc, List.append_assoc] at split
    obtain ⟨rfl, later⟩ := derived.unique first split
    exact ih behind later

end Agenda

/-! ### Programs -/

/-- The tokens are the first ones of some program. -/
def Viable (tokens : List Token) : Prop :=
  ∃ tail e, Program none (tokens ++ tail) e ∧ Lexable (tokens ++ tail)

/-- The token can stand behind the others in some program.  The end of the text can if they are all of it. -/
def MayFollow (front : List Token) (token : Token) : Prop :=
  if token = .endOfInput then ∃ e, Program none front e else Viable (front ++ [token])

section

variable {limit : Option Nat} {front back program : List Token} {token : Token} {tokens : List Token}
  {slot : Slot} {e : Expr}

theorem fills_program_iff :
    Agenda.program.Fills limit 0 tokens e ↔
      ∃ program, tokens = program ++ [.endOfInput] ∧ Program limit program e := by
  rw [Agenda.program, Agenda.fills_part_iff]
  constructor
  · rintro ⟨program, ending, d, rfl, derived, filled⟩
    obtain ⟨_, rfl, behind⟩ := Agenda.fills_sign_iff.mp filled
    obtain ⟨rfl, rfl⟩ := Agenda.fills_done_iff.mp behind
    exact ⟨program, rfl, derived⟩
  · rintro ⟨program, rfl, derived⟩
    exact ⟨program, _, e, rfl, derived, .sign (.done e)⟩

/-- The slot that a program starts with is one for an expression. -/
theorem Awaits.exists_agenda (h : Awaits limit front slot) :
    ∃ same : Slot, Agenda.program.Awaits limit 0 front same ∧
    ∀ limit' token, same.fault? limit' token = none ↔ slot.fault? limit' token = none := by
  cases h with
  | start =>
    refine ⟨_, .part, fun limit' token => ?_⟩
    cases token <;> simp [Slot.fault?, Slot.expressionFault?, Token.kind]
  | inside h => exact ⟨slot, h, fun limit' token => .rfl⟩

/-- What stands behind the first tokens of a program ends with the end of the text. -/
theorem exists_of_append_eq (h : front ++ token :: back = program ++ [.endOfInput]) :
    (back = [] ∧ token = .endOfInput ∧ program = front) ∨
      ∃ tail, back = tail ++ [.endOfInput] ∧ program = front ++ token :: tail := by
  rcases List.eq_nil_or_concat back with rfl | ⟨tail, last, rfl⟩
  · obtain ⟨rfl, same⟩ := List.append_inj' h rfl
    exact .inl ⟨rfl, List.head_eq_of_cons_eq same, rfl⟩
  · rw [List.concat_eq_append, ← List.cons_append, ← List.append_assoc] at h
    obtain ⟨rfl, same⟩ := List.append_inj' h rfl
    exact .inr ⟨tail, by rw [List.concat_eq_append, same], rfl⟩

/-- The first tokens of a program can be gone on with, whatever they await. -/
theorem Awaits.exists_program (h : Awaits limit front slot) :
    ∃ tail e, Program none (front ++ tail) e ∧ Lexable tail := by
  obtain ⟨same, awaits, -⟩ := h.exists_agenda
  obtain ⟨token, admits, isName⟩ := same.exists_admits
  obtain ⟨back, e, filled, others⟩ := awaits.exists_fills admits
  obtain ⟨program, split, derived⟩ := fills_program_iff.mp filled
  rcases exists_of_append_eq split with ⟨-, -, rfl⟩ | ⟨tail, rfl, rfl⟩
  · exact ⟨[], e, by rwa [List.append_nil], lexable_nil⟩
  · exact ⟨token :: tail, e, derived, lexable_cons_iff.mpr ⟨isName, (lexable_append_iff.mp others).1⟩⟩

theorem Awaits.viable (h : Awaits limit front slot) (lexable : Lexable front) : Viable front := by
  obtain ⟨tail, e, derived, others⟩ := h.exists_program
  exact ⟨tail, e, derived, lexable_append_iff.mpr ⟨lexable, others⟩⟩

theorem Awaits.endOfInput_notMem (h : Awaits limit front slot) : Token.endOfInput ∉ front := by
  obtain ⟨tail, e, derived, -⟩ := h.exists_program
  exact fun mem => derived.endOfInput_notMem (List.mem_append_left tail mem)

/-- Nothing is wrong with a token of a program within the limit, in the slot where it stands. -/
theorem Awaits.fault?_of_program {limit' : Option Nat} (h : Awaits limit front slot)
    (derived : Program limit' (front ++ token :: back) e) : slot.fault? limit' token = none := by
  obtain ⟨same, awaits, alike⟩ := h.exists_agenda
  have filled := fills_program_iff.mpr ⟨_, rfl, derived⟩
  have split : front ++ token :: back ++ [.endOfInput] ++ [] =
      front ++ token :: (back ++ [.endOfInput]) := by simp
  exact (alike limit' token).mp (awaits.fault?_of_fills filled split)

/-- A token may follow exactly if nothing is wrong with it. -/
theorem Awaits.mayFollow_iff_fault? (h : Awaits limit front slot) (lexable : Lexable front)
    (isName : ∀ text, token = .word text → IsName text) :
    MayFollow front token ↔ slot.fault? none token = none := by
  unfold MayFollow
  constructor
  · intro follows
    split at follows
    · -- the end follows a program, which fills the agenda together with the end
      next ending =>
      obtain ⟨e, derived⟩ := follows
      obtain ⟨same, awaits, alike⟩ := h.exists_agenda
      have filled := fills_program_iff.mpr ⟨front, rfl, derived⟩
      rw [ending, ← alike]
      exact awaits.fault?_of_fills filled (List.append_nil _)
    · obtain ⟨tail, e, derived, -⟩ := follows
      rw [List.append_assoc, List.singleton_append] at derived
      exact h.fault?_of_program derived
  · intro fine
    obtain ⟨same, awaits, alike⟩ := h.exists_agenda
    have admits := Slot.fault?_none_iff.mp ((alike none token).mpr fine)
    obtain ⟨back, e, filled, others⟩ := awaits.exists_fills admits
    obtain ⟨program, split, derived⟩ := fills_program_iff.mp filled
    -- the token is the end behind the whole program, or stands within the program
    rcases exists_of_append_eq split with ⟨-, rfl, rfl⟩ | ⟨tail, rfl, rfl⟩
    · rw [if_pos rfl]
      exact ⟨e, derived⟩
    · have inner : token ≠ .endOfInput := by
        rintro rfl
        exact derived.endOfInput_notMem (by simp)
      have whole : front ++ token :: tail = (front ++ [token]) ++ tail := by simp
      rw [if_neg inner]
      refine ⟨tail, e, whole ▸ derived,
        whole ▸ lexable_append_iff.mpr ⟨lexable, lexable_cons_iff.mpr ⟨isName, ?_⟩⟩⟩
      exact (lexable_append_iff.mp others).1

end

end Grammar
end LetArith
