import LetArith.Proofs.Location
import LetArith.Proofs.Precedence

/-!
# LetArith.Proofs.Renaming — names have no meaning of their own

Another choice of names, with the reserved words kept and different names kept apart, changes nothing
but the names.  A renaming is applied to all words of a text, and to whatever is made of them: trees,
scopes, slots and agendas.

* `Renaming.apply_injective`: beside the names, all other texts can be left as they are.
* `Derives.rename`: renamed tokens are derived where the tokens are, and are the renamed tree.
* `Awaits.rename`, `Slot.fault?_rename`: behind renamed tokens there is the renamed slot, with the same
  faults.
* `renaming_invariance`: hence a renamed text is read, evaluated and refused as the text is.
-/

namespace LetArith

open Grammar

/-! ### Renamings -/

/-- The characters are those of a name. -/
def isNameChars : List Char → Bool
  | [] => false
  | first :: others => first.isLower && others.all fun c => c.isLower || c.isDigit

theorem Token.isName_iff {text : String} : Token.IsName text ↔ isNameChars text.toList = true := by
  constructor
  · rintro ⟨first, others, chars, lower, tail⟩
    rw [chars, isNameChars, lower, Bool.true_and]
    exact List.all_eq_true.mpr tail
  · intro h
    cases chars : text.toList with
    | nil => simp [chars, isNameChars] at h
    | cons first others =>
      rw [chars, isNameChars, Bool.and_eq_true, List.all_eq_true] at h
      exact ⟨first, others, chars, h.1, h.2⟩

/-- A name is told by its characters. -/
instance Token.decidableIsName (text : String) : Decidable (Token.IsName text) :=
  decidable_of_iff (isNameChars text.toList = true) Token.isName_iff.symm

/-- The names of the language. -/
abbrev Name := { text : String // Token.IsName text }

/-- A reserved word as a name. -/
def Keyword.name (keyword : Keyword) : Name := ⟨keyword.text, keyword.isName_text⟩

/-- Other names for all names, different ones for different ones.  Reserved words stay. -/
structure Renaming where
  onNames : Name → Name
  injective : Function.Injective onNames
  keeps : ∀ keyword : Keyword, onNames keyword.name = keyword.name

namespace Renaming

variable (r : Renaming)

/-- The renaming on all texts: what is no name stays. -/
def apply (text : String) : String := if h : Token.IsName text then (r.onNames ⟨text, h⟩).val else text

theorem apply_of_isName {text : String} (h : Token.IsName text) :
    r.apply text = (r.onNames ⟨text, h⟩).val := dif_pos h

theorem isName_apply_iff {text : String} : Token.IsName (r.apply text) ↔ Token.IsName text := by
  by_cases h : Token.IsName text
  · rw [r.apply_of_isName h]
    exact iff_of_true (r.onNames ⟨text, h⟩).property h
  · rw [apply, dif_neg h]

theorem apply_injective : Function.Injective r.apply := by
  intro text text' same
  have both : Token.IsName text ↔ Token.IsName text' := by
    rw [← r.isName_apply_iff, same, r.isName_apply_iff]
  by_cases h : Token.IsName text
  · rw [r.apply_of_isName h, r.apply_of_isName (both.mp h)] at same
    exact congrArg Subtype.val (r.injective (Subtype.ext same))
  · rwa [apply, apply, dif_neg h, dif_neg (mt both.mpr h)] at same

theorem apply_eq_iff {text text' : String} : r.apply text = r.apply text' ↔ text = text' :=
  r.apply_injective.eq_iff

@[simp] theorem apply_keyword (keyword : Keyword) : r.apply keyword.text = keyword.text := by
  rw [r.apply_of_isName keyword.isName_text]
  exact congrArg Subtype.val (r.keeps keyword)

@[simp] theorem ofText?_apply (text : String) : Keyword.ofText? (r.apply text) = Keyword.ofText? text := by
  refine Option.ext fun keyword => ?_
  have same : r.apply keyword.text = r.apply text ↔ keyword.text = text := r.apply_eq_iff
  rw [r.apply_keyword] at same
  rw [Keyword.ofText?_eq_some_iff, Keyword.ofText?_eq_some_iff, same]

end Renaming

/-! ### What is renamed -/

variable (r : Renaming)

/-- The token with its word renamed. -/
def Token.rename : Token → Token
  | .word text => .word (r.apply text)
  | token => token

/-- The tree with all its names renamed, those in the operands of its variables too. -/
def Expr.rename : Expr → Expr
  | integer value => .integer value
  | binary op lhs rhs => .binary op lhs.rename rhs.rename
  | letIn name bound body => .letIn (r.apply name) bound.rename body.rename
  | var name place operand => .var (r.apply name) place operand.rename

/-- The operand with the names of its tree renamed. -/
def Operand.rename (operand : Operand) : Operand := ⟨operand.place, operand.expr.rename r⟩

/-- The scope with its names renamed, and those of its operands. -/
def Scope.rename (scope : Scope) : Scope :=
  ⟨scope.bindings.map fun binding => ⟨r.apply binding.name, binding.operand.rename r⟩⟩

/-- The slot with its scope renamed. -/
def Grammar.Slot.rename : Slot → Slot
  | .start => .start
  | .part symbol scope place level => .part symbol (scope.rename r) place level
  | .name scope => .name (scope.rename r)
  | .sign sought => .sign sought

/-- The error with its names renamed, in other columns. -/
def ParseError.rename (columns : Span) : ParseError → ParseError
  | lexical e => .lexical e
  | unexpectedToken expected found => .unexpectedToken expected ⟨found.token.rename r, columns⟩
  | missingExpression found => .missingExpression ⟨found.token.rename r, columns⟩
  | unknownOperation name _ => .unknownOperation (r.apply name) columns
  | invalidOperand found => .invalidOperand ⟨found.token.rename r, columns⟩
  | unboundVariable name _ => .unboundVariable (r.apply name) columns
  | reservedName name _ => .reservedName (r.apply name) columns
  | redeclaration name _ => .redeclaration (r.apply name) columns
  | tooDeep _ => .tooDeep columns

@[simp] theorem Token.kind_rename (token : Token) : (token.rename r).kind = token.kind := by
  cases token <;> rfl

@[simp] theorem Grammar.Sign.token_rename (sign : Sign) : sign.token.rename r = sign.token := by
  cases sign <;> rfl

@[simp] theorem Keyword.word_rename (keyword : Keyword) :
    Token.rename r (.word keyword.text) = .word keyword.text := by
  rw [Token.rename, r.apply_keyword]

namespace Expr

@[simp] theorem nodeCount_rename (e : Expr) : (e.rename r).nodeCount = e.nodeCount := by
  induction e with
  | integer value => rfl
  | binary op lhs rhs ihl ihr => rw [rename, nodeCount, nodeCount, ihl, ihr]
  | letIn name bound body ihb ihe => rw [rename, nodeCount, nodeCount, ihb, ihe]
  | var name place operand _ => rfl

/-- Names are not worth anything. -/
theorem value_rename (e : Expr) : (e.rename r).value = e.value := by
  induction e with
  | integer value => rfl
  | binary op lhs rhs ihl ihr => rw [rename, value, value, ihl, ihr]
  | letIn name bound body ihb ihe => rw [rename, value, value, ihb, ihe]
  | var name place operand ih => rw [rename, value, value, ih]

theorem evaluate_rename (e : Expr) : (e.rename r).evaluate = e.evaluate := by
  rw [evaluate_eq_value, evaluate_eq_value, value_rename]

end Expr

namespace Scope

theorem rename_bind (scope : Scope) (name : String) (operand : Operand) :
    (scope.bind name operand).rename r = (scope.rename r).bind (r.apply name) (operand.rename r) := rfl

/-- A renamed name stands for the renamed operand. -/
theorem lookup?_rename (scope : Scope) (name : String) :
    (scope.rename r).lookup? (r.apply name) = (scope.lookup? name).map (Operand.rename r) := by
  obtain ⟨bindings⟩ := scope
  induction bindings with
  | nil => rfl
  | cons binding bindings ih =>
    have first := lookup?_bind ⟨bindings⟩ binding.name name binding.operand
    have renamed := lookup?_bind (rename r ⟨bindings⟩) (r.apply binding.name) (r.apply name)
      (binding.operand.rename r)
    refine renamed.trans (Eq.trans ?_ (congrArg (Option.map (Operand.rename r)) first).symm)
    by_cases same : binding.name = name
    · rw [if_pos same, if_pos (congrArg r.apply same), Option.map_some]
    · rw [if_neg same, if_neg (mt r.apply_eq_iff.mp same), ih]

@[simp] theorem contains_rename (scope : Scope) (name : String) :
    (scope.rename r).contains (r.apply name) = scope.contains name := by
  rw [contains_eq_isSome, contains_eq_isSome, lookup?_rename, Option.isSome_map]

end Scope

/-! ### Renamed programs -/

namespace Grammar

variable {limit : Option Nat} {level : Nat} {front : List Token} {slot : Slot}

/-- By induction on the derivation. -/
theorem Derives.rename {symbol : Symbol} {scope : Scope} {place : Nat} {tokens : List Token} {e : Expr}
    (h : Derives limit symbol scope place level tokens e) :
    Derives limit symbol (scope.rename r) place level (tokens.map (Token.rename r)) (e.rename r) := by
  induction h with
  | integer value => exact .integer value
  | @name scope place level name shared free visible =>
    have found : (scope.rename r).lookup? (r.apply name) = some (shared.rename r) := by
      rw [Scope.lookup?_rename, visible, Option.map_some]
    exact .name ((r.ofText?_apply name).trans free) found
  | expression inner ih => exact .expression ih
  | application op within left right ihl ihr =>
    rw [← Expr.nodeCount_rename r] at ihr
    have whole := Derives.application op within ihl ihr
    have word : r.apply op.word = op.word := r.apply_keyword (.operator op)
    simpa [word, Token.rename, Expr.rename] using whole
  | @letIn scope place level name _ _ bound body within free fresh operand inner ihb ihe =>
    rw [Scope.rename_bind, ← Expr.nodeCount_rename r] at ihe
    have free' : Keyword.ofText? (r.apply name) = none := (r.ofText?_apply name).trans free
    have fresh' : (scope.rename r).contains (r.apply name) = false :=
      (scope.contains_rename r name).trans fresh
    have whole := Derives.letIn within free' fresh' ihb ihe
    have word : r.apply "let" = "let" := r.apply_keyword .letIn
    simpa [word, Token.rename, Expr.rename] using whole

/-- The two agendas go on alike, with the names of the one renamed in the other. -/
inductive Agenda.Renames : Agenda → Agenda → Prop
  | done (e : Expr) : Renames (.done e) (.done (e.rename r))
  | sign {sign : Sign} {next next' : Agenda} (others : Renames next next') :
      Renames (.sign sign next) (.sign sign next')
  | name {scope : Scope} {next next' : String → Agenda}
      (others : ∀ name, Renames (next name) (next' (r.apply name))) :
      Renames (.name scope next) (.name (scope.rename r) next')
  | bound {name : String} {operand : Expr} {next next' : Agenda} (others : Renames next next') :
      Renames (.bound name operand next) (.bound (r.apply name) (operand.rename r) next')
  | part {symbol : Symbol} {scope : Scope} {place : Nat} {next next' : Expr → Agenda}
      (others : ∀ e, Renames (next e) (next' (e.rename r))) :
      Renames (.part symbol scope place next) (.part symbol (scope.rename r) place next')

theorem Agenda.renames_after (scope : Scope) (place : Nat) (keyword : Keyword) :
    Renames r (.after scope place keyword) (.after (scope.rename r) place keyword) := by
  cases keyword with
  | operator op =>
    refine .sign (.part fun lhs => .sign ?_)
    rw [← Expr.nodeCount_rename r lhs]
    exact .part fun rhs => .sign (.done (.binary op lhs rhs))
  | letIn =>
    refine .sign (.name fun name => .sign (.part fun operand => .sign (.bound ?_)))
    rw [← Expr.nodeCount_rename r operand]
    exact .part fun body => .sign (.done (.letIn name operand body))

/-- By induction on the tokens that were read. -/
theorem Agenda.Awaits.rename {agenda : Agenda} (h : agenda.Awaits limit level front slot) :
    ∀ {agenda' : Agenda}, agenda.Renames r agenda' →
      agenda'.Awaits limit level (front.map (Token.rename r)) (slot.rename r) := by
  induction h with
  | sign =>
    intro agenda' alike
    cases alike with
    | sign others => exact .sign
  | signThen others ih =>
    intro agenda' alike
    cases alike with
    | sign alike =>
      rw [List.map_cons, Sign.token_rename]
      exact .signThen (ih alike)
  | name =>
    intro agenda' alike
    cases alike with
    | name others => exact .name
  | @nameThen level scope next name front slot free fresh others ih =>
    intro agenda' alike
    cases alike with
    | name alike =>
      exact .nameThen ((r.ofText?_apply name).trans free) ((scope.contains_rename r name).trans fresh)
        (ih (alike name))
  | boundThen others ih =>
    intro agenda' alike
    cases alike with
    | bound alike => exact .boundThen (ih alike)
  | part =>
    intro agenda' alike
    cases alike with
    | part others => exact .part
  | inside within inner ih =>
    intro agenda' alike
    cases alike with
    | part others =>
      -- a reserved word stays, and so does what is asked for behind it
      rw [List.map_cons, Keyword.word_rename]
      exact .inside within (ih (renames_after r _ _ _))
  | @partThen level symbol scope place next front back d slot first others ih =>
    intro agenda' alike
    cases alike with
    | part alike =>
      rw [List.map_append]
      exact .partThen (first.rename r) (ih (alike d))

theorem Awaits.rename (h : Awaits limit front slot) :
    Awaits limit (front.map (Token.rename r)) (slot.rename r) := by
  cases h with
  | start => exact .start
  | inside h => exact .inside (h.rename r (.part fun e => .sign (.done e)))

namespace Slot

theorem expressionFault?_rename (token : Token) :
    expressionFault? limit level (token.rename r) = expressionFault? limit level token := by
  cases token with
  | word text => simp only [Token.rename, expressionFault?, r.ofText?_apply]
  | integer _ | openParen | closeParen | comma | endOfInput => rfl

/-- What is wrong with a token is wrong with the renamed token. -/
theorem fault?_rename (slot : Slot) (token : Token) :
    (slot.rename r).fault? limit (token.rename r) = slot.fault? limit token := by
  cases slot with
  | start => simp only [rename, fault?, Token.kind_rename, expressionFault?_rename]
  | part symbol scope place level =>
    cases symbol with
    | expression => exact expressionFault?_rename r token
    | operand =>
      cases token with
      | word text =>
        have expression : expressionFault? limit level (Token.rename r (.word text)) =
            expressionFault? limit level (.word text) := expressionFault?_rename r (.word text)
        simp only [rename, Token.rename, fault?, r.ofText?_apply, Scope.contains_rename] at expression ⊢
        rw [expression]
      | integer _ | openParen | closeParen | comma | endOfInput => rfl
  | name scope =>
    cases token with
    | word text => simp only [rename, Token.rename, fault?, r.ofText?_apply, Scope.contains_rename]
    | integer _ | openParen | closeParen | comma | endOfInput => rfl
  | sign sign => simp only [rename, fault?, Token.kind_rename]

/-- The error of the renamed token is the renamed error. -/
theorem HasFault.about_rename {found found' : Lexeme} {fault : Fault}
    (h : slot.HasFault limit found.token fault) (renamed : found'.token = found.token.rename r) :
    fault.about found' = (fault.about found).rename r found'.span := by
  obtain ⟨token, columns⟩ := found'
  obtain rfl : token = found.token.rename r := renamed
  rcases h.names with ⟨text, word⟩ | ⟨expected, rfl⟩ | rfl | rfl
  · cases fault <;> simp only [Fault.about, ParseError.rename, word, Token.rename, Token.text]
  all_goals rfl

end Slot
end Grammar

/-! ### Two texts -/

section

variable {text text' : String} {lexemes lexemes' front : List Lexeme} {found : Lexeme} {last next : Cursor}

/-- Behind the last lexeme of a text there is its end. -/
theorem Cursor.Munches.scan_end (munched : (Cursor.ofString text).Munches lexemes last)
    (blanks : ∀ ch ∈ last.rest, ch = ' ') : ∃ next, last.scan = (.ok (endLexeme text), next) := by
  obtain ⟨before, split, start, -⟩ := munched.follows (Cursor.follows_ofString text)
  have total : last.column + last.rest.length = text.length := by
    rw [← String.length_toList, split, List.length_append, start]
  have scanned := Cursor.scan_of_blanks blanks last.column
  rw [total] at scanned
  exact ⟨_, scanned⟩

/-- What can be read in a text without lexical errors is its lexemes, and its end behind them. -/
theorem exists_scan_iff (read : tokenize text = .ok lexemes) :
    (∃ last next, (Cursor.ofString text).Munches front last ∧ last.scan = (.ok found, next)) ↔
      ∃ back, lexemes ++ [endLexeme text] = front ++ found :: back := by
  obtain ⟨last, munched, blanks⟩ := Cursor.tokens_eq_ok_iff_munches.mp read
  obtain ⟨next, scanned⟩ := munched.scan_end blanks
  constructor
  · rintro ⟨middle, behind, first, shown⟩
    rcases first.shown_cases shown munched (Cursor.atEnd_of_blanks blanks) with ⟨rfl, rfl⟩ | ⟨back, rfl, -⟩
    · obtain rfl := Except.ok.inj (congrArg Prod.fst (scanned.symm.trans shown))
      exact ⟨[], rfl⟩
    · exact ⟨back ++ [endLexeme text], by simp⟩
  · rintro ⟨back, split⟩
    rcases List.eq_nil_or_concat back with rfl | ⟨others, ending, rfl⟩
    · obtain ⟨rfl, same⟩ := List.append_inj' split rfl
      obtain rfl := List.head_eq_of_cons_eq same
      exact ⟨last, next, munched, scanned⟩
    · rw [List.concat_eq_append, ← List.cons_append, ← List.append_assoc] at split
      obtain ⟨rfl, -⟩ := List.append_inj' split rfl
      obtain ⟨middle, first, later⟩ := Cursor.munches_append_iff.mp munched
      obtain ⟨behind, shown, -, -⟩ := Cursor.munches_cons_iff.mp later
      exact ⟨middle, behind, first, shown⟩

/-- There is always something to be read in a text without lexical errors. -/
theorem exists_scan_of_munches (read : tokenize text = .ok lexemes)
    (munched : (Cursor.ofString text).Munches front last) : ∃ found next, last.scan = (.ok found, next) := by
  cases hs : last.scan with
  | mk result next =>
    cases result with
    | ok found => exact ⟨found, next, rfl⟩
    | error e => cases read.symm.trans (munched.tokens_eq_error hs)

theorem exists_scan_of_scan (read : tokenize text = .ok lexemes)
    (munched : (Cursor.ofString text).Munches front last)
    (scanned : last.scan = (.ok found, next)) : ∃ found' next', next.scan = (.ok found', next') := by
  by_cases ending : found.token = .endOfInput
  · exact ⟨found, next, Cursor.scan_of_endOfInput scanned ending⟩
  · have more := Cursor.munches_of_scan scanned ending
    exact exists_scan_of_munches read (Cursor.munches_append_iff.mpr ⟨last, munched, more⟩)

/-- The reader stops at the renamed token, with the renamed error. -/
theorem Expr.StopsAt.rename {fault : Fault} (h : Expr.StopsAt text front found fault)
    (read : tokenize text = .ok lexemes) (read' : tokenize text' = .ok lexemes')
    (renamed : lexemes'.map Lexeme.token = lexemes.map fun lexeme => lexeme.token.rename r) :
    ∃ (k : Nat) (found' : Lexeme), (lexemes ++ [endLexeme text])[k]? = some found ∧
      (lexemes' ++ [endLexeme text'])[k]? = some found' ∧
      Expr.parse text' = .error ((fault.about found).rename r found'.span) := by
  cases h with
  | @intro last next slot munched scanned awaits wrong ready =>
    -- the lexemes of both texts are split at the same index, since their tokens correspond one by one
    obtain ⟨back, split⟩ := (exists_scan_iff read).mp ⟨last, next, munched, scanned⟩
    have all : (lexemes' ++ [endLexeme text']).map Lexeme.token =
        (front.map fun lexeme => lexeme.token.rename r) ++
          found.token.rename r :: back.map fun lexeme => lexeme.token.rename r := by
      have whole := congrArg (List.map fun lexeme => lexeme.token.rename r) split
      simp only [List.map_append, List.map_cons, List.map_nil] at whole
      rw [List.map_append, renamed]
      exact whole
    obtain ⟨front', rest, split', same, hr⟩ := List.map_eq_append_iff.mp all
    obtain ⟨found', back', rfl, word, -⟩ := List.map_eq_cons_iff.mp hr
    obtain ⟨last', next', munched', scanned'⟩ := (exists_scan_iff read').mpr ⟨back', split'⟩
    have awaits' : Awaits (some maxDepth) (front'.map Lexeme.token) (slot.rename r) := by
      have tokens : front'.map Lexeme.token = (front.map Lexeme.token).map (Token.rename r) := by
        rw [same, List.map_map]
        rfl
      rw [tokens]
      exact awaits.rename r
    have wrong' : (slot.rename r).fault? (some maxDepth) found'.token = some fault := by
      rw [word, Slot.fault?_rename, wrong]
    -- both texts have all their tokens, so that it does not matter whether the wrong one gets taken
    have stopped : Expr.StopsAt text' front' found' fault :=
      .intro munched' scanned' awaits' wrong' (.inr (exists_scan_of_scan read' munched' scanned'))
    have long : front'.length = front.length := by simpa using congrArg List.length same
    refine ⟨front.length, found', ?_, ?_, ?_⟩
    · rw [split]
      simp
    · rw [split', ← long]
      simp
    · rw [stopped.parse_eq, (Slot.fault?_eq_some_iff.mp wrong).about_rename r word]

end

/-- Let the tokens of one text be those of another with the words renamed.  Either both texts are read,
the one as the renamed tree of the other, and have the same value or the same error; or both are refused
with the same error but for the renaming, in the columns of tokens with the same index. -/
theorem renaming_invariance {text text' : String} {lexemes lexemes' : List Lexeme}
    (read : tokenize text = .ok lexemes) (read' : tokenize text' = .ok lexemes')
    (renamed : lexemes'.map Lexeme.token = lexemes.map fun lexeme => lexeme.token.rename r) :
    (∃ e, Expr.parse text = .ok e ∧ Expr.parse text' = .ok (e.rename r) ∧
      (e.rename r).evaluate = e.evaluate) ∨
      ∃ (err : ParseError) (k : Nat) (found found' : Lexeme), (lexemes ++ [endLexeme text])[k]? = some found ∧
        (lexemes' ++ [endLexeme text'])[k]? = some found' ∧ err.span = found.span ∧
        Expr.parse text = .error err ∧ Expr.parse text' = .error (err.rename r found'.span) := by
  cases h : Expr.parse text with
  | ok e =>
    left
    obtain ⟨found, hf, derived⟩ := Expr.parse_eq_ok_iff.mp h
    obtain rfl := Except.ok.inj (hf.symm.trans read)
    have tokens : lexemes'.map Lexeme.token = (found.map Lexeme.token).map (Token.rename r) := by
      rw [renamed, List.map_map]
      rfl
    have program : Program (some maxDepth) (lexemes'.map Lexeme.token) (e.rename r) := by
      rw [tokens]
      exact Derives.rename r derived
    exact ⟨e, rfl, Expr.parse_eq_ok_iff.mpr ⟨lexemes', read', program⟩, e.evaluate_rename r⟩
  | error err =>
    right
    rcases Expr.exists_stopsAt_of_parse h with ⟨e, failed, rfl⟩ | ⟨front, found, fault, stopped, rfl⟩
    · cases read.symm.trans failed
    · obtain ⟨k, found', here, here', refused⟩ := stopped.rename r read read' renamed
      exact ⟨fault.about found, k, found, found', here, here', fault.span_about found, rfl, refused⟩

/-- The renaming that exchanges two names. -/
def Renaming.exchange (name name' : Name) (free : Keyword.ofText? name.val = none)
    (free' : Keyword.ofText? name'.val = none) : Renaming where
  onNames := Equiv.swap name name'
  injective := (Equiv.swap name name').injective
  keeps keyword := by
    have other {name : Name} (free : Keyword.ofText? name.val = none) : keyword.name ≠ name := by
      rintro rfl
      rw [Keyword.name, Keyword.ofText?_text] at free
      cases free
    exact Equiv.swap_apply_of_ne_of_ne (other free) (other free')

/-- Two names can be exchanged. -/
theorem Renaming.exists_exchange : ∃ r : Renaming, r.apply "a" = "b" := by
  have isName (c : Char) (lower : c.isLower = true) : Token.IsName (String.ofList [c]) :=
    ⟨c, [], String.toList_ofList, lower, List.forall_mem_nil _⟩
  have free : Keyword.ofText? "a" = none := by decide
  have free' : Keyword.ofText? "b" = none := by decide
  refine ⟨.exchange ⟨"a", isName 'a' rfl⟩ ⟨"b", isName 'b' rfl⟩ free free', ?_⟩
  rw [Renaming.apply_of_isName _ (isName 'a' rfl)]
  exact congrArg Subtype.val (Equiv.swap_apply_left _ _)

/-- A variable can be called otherwise, and an unknown word is unknown under another name. -/
theorem renaming_invariance_exchange :
    ∃ r : Renaming, r.apply "a" = "b" ∧
      (∃ e, Expr.parse "let(a,1,add(a,2))" = .ok e ∧ Expr.parse "let(b,01, add(b, 2))" = .ok (e.rename r) ∧
        (e.rename r).evaluate = e.evaluate) ∧
      Expr.parse "a" = .error (.unknownOperation "a" ⟨0, 1⟩) ∧
      Expr.parse " b" = .error (.unknownOperation "b" ⟨1, 2⟩) := by
  obtain ⟨r, exchanged⟩ := Renaming.exists_exchange
  refine ⟨r, exchanged, ?_, ?_⟩
  · have accepted : Expr.parse "let(a,1,add(a,2))" =
        .ok (.letIn "a" (.integer 1) (.binary .add (.var "a" 1 (.integer 1)) (.integer 2))) := by
      decide +kernel
    have accepted' : Expr.parse "let(b,01, add(b, 2))" =
        .ok (.letIn "b" (.integer 1) (.binary .add (.var "b" 1 (.integer 1)) (.integer 2))) := by
      decide +kernel
    obtain ⟨lexemes, read, derived⟩ := Expr.parse_eq_ok_iff.mp accepted
    obtain ⟨lexemes', read', derived'⟩ := Expr.parse_eq_ok_iff.mp accepted'
    have renamed : lexemes'.map Lexeme.token = (lexemes.map Lexeme.token).map (Token.rename r) := by
      have word (keyword : Keyword) := r.apply_keyword keyword
      rw [derived.tokens_eq, derived'.tokens_eq]
      simp [Expr.tokens, Token.rename, exchanged, show r.apply "let" = "let" from word .letIn,
        show r.apply Operator.add.word = Operator.add.word from word (.operator .add)]
    rw [List.map_map] at renamed
    obtain alike | ⟨err, -, -, -, -, -, -, refused, -⟩ := renaming_invariance r read read' renamed
    · exact alike
    · cases accepted.symm.trans refused
  · have refused : Expr.parse "a" = .error (.unknownOperation "a" ⟨0, 1⟩) := by decide +kernel
    have read : tokenize "a" = .ok [⟨.word "a", ⟨0, 1⟩⟩] := by decide +kernel
    have read' : tokenize " b" = .ok [⟨.word "b", ⟨1, 2⟩⟩] := by decide +kernel
    have renamed : [Token.word "b"] = [Token.rename r (.word "a")] := by rw [Token.rename, exchanged]
    obtain ⟨e, accepted, -⟩ | ⟨err, k, found, found', here, here', same, failed, failed'⟩ :=
      renaming_invariance r read read' renamed
    · cases refused.symm.trans accepted
    · obtain rfl := Except.error.inj (refused.symm.trans failed)
      -- the columns of the error are those of the first lexeme
      rcases k with _ | _ | k
      · obtain rfl := Option.some.inj here'
        rw [failed', ParseError.rename, exchanged]
        exact ⟨refused, rfl⟩
      · obtain rfl := Option.some.inj here
        cases same
      · cases here

end LetArith
