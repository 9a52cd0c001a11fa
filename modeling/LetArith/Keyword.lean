import LetArith.Operator

/-!
# LetArith.Keyword — the reserved words

A word of a program is reserved if it starts an expression: the words of the operators, and `let`.
Every other word is the name of a variable.

* `Keyword.ofText?_eq_some_iff`: a text is read as a reserved word exactly when it is the spelling of
  that word.
* `Keyword.mem_words_iff`, `Keyword.listing_eq`: which words those are.
-/

namespace LetArith

/-- A reserved word. -/
inductive Keyword
  | operator (op : Operator)
  | letIn
  deriving DecidableEq

namespace Keyword

/-- Every reserved word, in the order in which messages list them. -/
def all : List Keyword := Operator.all.map .operator ++ [.letIn]

/-- The spelling of a reserved word. -/
def text : Keyword → String
  | .operator op => op.word
  | .letIn => "let"

/-- The reserved word that a text spells, if it spells one. -/
def ofText? (text : String) : Option Keyword := all.find? (fun keyword => keyword.text == text)

/-- Every reserved word, separated by commas. -/
def listing : String := ", ".intercalate (all.map text)

theorem mem_all (keyword : Keyword) : keyword ∈ all := by
  cases keyword with
  | operator op => simp [all, Operator.mem_all]
  | letIn => simp [all]

theorem text_injective {k l : Keyword} (h : k.text = l.text) : k = l := by
  revert h
  rcases k with (_ | _ | _ | _) | _ <;> rcases l with (_ | _ | _ | _) | _ <;> decide

theorem ofText?_eq_some_iff {t : String} {keyword : Keyword} :
    ofText? t = some keyword ↔ keyword.text = t := by
  constructor
  · intro h
    simpa using List.find?_some h
  · rintro rfl
    cases h : ofText? keyword.text with
    | none => exact absurd (List.find?_eq_none.mp h keyword (mem_all keyword)) (by simp)
    | some found => rw [text_injective (by simpa using List.find?_some h : found.text = keyword.text)]

@[simp] theorem ofText?_text (keyword : Keyword) : ofText? keyword.text = some keyword :=
  ofText?_eq_some_iff.mpr rfl

theorem mem_words_iff {t : String} :
    t ∈ ["add", "sub", "mult", "div", "let"] ↔ ∃ keyword : Keyword, keyword.text = t := by
  rw [show ["add", "sub", "mult", "div", "let"] = all.map text from rfl, List.mem_map]
  exact ⟨fun ⟨keyword, _, same⟩ => ⟨keyword, same⟩, fun ⟨keyword, same⟩ => ⟨keyword, mem_all keyword, same⟩⟩

theorem ofText?_eq_none_iff {t : String} : ofText? t = none ↔ t ∉ ["add", "sub", "mult", "div", "let"] := by
  rw [mem_words_iff, Option.eq_none_iff_forall_ne_some, not_exists]
  exact forall_congr' fun keyword => not_congr ofText?_eq_some_iff

theorem listing_eq : listing = "add, sub, mult, div, let" := by decide

end Keyword
end LetArith
