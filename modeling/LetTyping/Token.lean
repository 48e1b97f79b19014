import LetTyping.Text.Decimal
import LetTyping.Text.Span

/-!
# Tokens

The words and marks that a program is written with.

## Main definitions

* `Token` — keywords, integers, identifiers, punctuation, and the end of the text.
* `Token.text` — how a token is written.
* `Token.ofWord` — the token that a word stands for: a keyword or an identifier.
* `Token.ofMark?` — the token that a punctuation character stands for.
-/

namespace LetTyping

/-- The tokens of the language. -/
inductive Token where
  /-- The keyword of a declaration. -/
  | letWord
  /-- The keyword of a function. -/
  | fnWord
  /-- The keyword of a returned value. -/
  | returnWord
  /-- An integer literal. -/
  | int (value : Int)
  /-- An identifier. -/
  | ident (name : String)
  | openParen
  | closeParen
  | openBrace
  | closeBrace
  | openBracket
  | closeBracket
  | comma
  | semicolon
  | equals
  /-- The end of the text. -/
  | eof
  deriving DecidableEq, Inhabited

namespace Token

/-- How a token is written.  The end of the text has a name of its own for use in messages. -/
def text : Token → String
  | letWord => "let"
  | fnWord => "fn"
  | returnWord => "return"
  | int value => Decimal.ofInt value
  | ident name => name
  | openParen => "("
  | closeParen => ")"
  | openBrace => "\x7b"
  | closeBrace => "\x7d"
  | openBracket => "["
  | closeBracket => "]"
  | comma => ","
  | semicolon => ";"
  | equals => "="
  | eof => "<eof>"

/-- The token of a word: one of the three keywords, and otherwise an identifier. -/
def ofWord (word : String) : Token :=
  if word = "let" then letWord
  else if word = "fn" then fnWord
  else if word = "return" then returnWord
  else ident word

/-- The token of a punctuation character. -/
def ofMark? : Char → Option Token
  | '(' => some openParen
  | ')' => some closeParen
  | '\x7b' => some openBrace
  | '\x7d' => some closeBrace
  | '[' => some openBracket
  | ']' => some closeBracket
  | ',' => some comma
  | ';' => some semicolon
  | '=' => some equals
  | _ => none

end Token

end LetTyping
