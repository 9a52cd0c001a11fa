import LetArith.Span

/-!
# LetArith.Token — tokens and where they stand

A program is a sequence of integers, words, parentheses and commas.  The end of the input counts as a
token, so that there is always a next one.  A word is any name in lower case, whether it is reserved or
not.
-/

namespace LetArith

/-- One token of a program. -/
inductive Token
  | integer (value : Int32)
  | word (text : String)
  | openParen
  | closeParen
  | comma
  | endOfInput
  deriving DecidableEq

/-- A token without what it carries. -/
inductive TokenKind
  | integer
  | word
  | openParen
  | closeParen
  | comma
  | endOfInput
  deriving DecidableEq

/-- A token and the columns that it fills. -/
structure Lexeme where
  token : Token
  span : Span
  deriving DecidableEq

namespace TokenKind

/-- Every kind, in the order in which `Token` lists them. -/
def all : List TokenKind := [.integer, .word, .openParen, .closeParen, .comma, .endOfInput]

/-- What a message says was expected where a token of this kind is missing. -/
def text : TokenKind → String
  | .integer => "integer"
  | .word => "keyword"
  | .openParen => "("
  | .closeParen => ")"
  | .comma => ","
  | .endOfInput => "end of input"

end TokenKind

namespace Token

/-- The kind of the token. -/
def kind : Token → TokenKind
  | .integer _ => .integer
  | .word _ => .word
  | .openParen => .openParen
  | .closeParen => .closeParen
  | .comma => .comma
  | .endOfInput => .endOfInput

/-- The token as a program writes it. -/
def text : Token → String
  | .integer value => toString value.toInt
  | .word text => text
  | .openParen => "("
  | .closeParen => ")"
  | .comma => ","
  | .endOfInput => "EOF"

/-- The token with its kind, for listings. -/
def description : Token → String
  | .integer value => "Integer(" ++ toString value.toInt ++ ")"
  | .word text => "Keyword(\"" ++ text ++ "\")"
  | .openParen => "ParenLeft"
  | .closeParen => "ParenRight"
  | .comma => "Comma"
  | .endOfInput => "Eof"

/-- The token that one character is by itself. -/
def punctuation? : Char → Option Token
  | '(' => some .openParen
  | ')' => some .closeParen
  | ',' => some .comma
  | _ => none

end Token
end LetArith
