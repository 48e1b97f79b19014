/-!
# Lines and columns

A source text is divided into lines, each of which holds the characters that end it.  A carriage
return and a line feed together end one line.  A text that ends with the end of a line has no
further, empty line, and the place after its last character counts on in the last line.

## Main definitions

* `lineLengths` — the lengths of the lines of a text.
* `Place` — a line and a column, both counted from 1.
* `placeOf?` — the place of an offset in a text.
-/

namespace LetTyping

/-- Whether a character ends a line: a line feed, a vertical tab, a form feed, a carriage return,
the control character for the next line, and the separators of lines and of paragraphs. -/
def endsLine (c : Char) : Bool :=
  c = '\n' || c = '\x0b' || c = '\x0c' || c = '\r' || c = '\u0085' || c = '\u2028' ||
    c = '\u2029'

/-- The lengths of the lines of a text, of whose first line `before` characters are counted
already. -/
def lineLengthsFrom (before : Nat) : List Char → List Nat
  | [] => if before = 0 then [] else [before]
  | '\r' :: '\n' :: cs => (before + 2) :: lineLengthsFrom 0 cs
  | c :: cs =>
    if endsLine c then (before + 1) :: lineLengthsFrom 0 cs else lineLengthsFrom (before + 1) cs

/-- The lengths of the lines of a text, with the characters that end them. -/
def lineLengths (text : String) : List Nat := lineLengthsFrom 0 text.toList

/-- A line and a column, both counted from 1. -/
structure Place where
  line : Nat
  column : Nat
  deriving DecidableEq

/-- The place of an offset counted from the start of line number `line`, given the lengths of this
line and the following ones.  Offsets beyond the last line count on in it. -/
def placeFrom (line : Nat) : List Nat → Nat → Place
  | length :: lengths@(_ :: _), offset =>
    if offset < length then ⟨line, offset + 1⟩ else placeFrom (line + 1) lengths (offset - length)
  | _, offset => ⟨line, offset + 1⟩

/-- The place of an offset in a text; there is none beyond the end of the text. -/
def placeOf? (text : String) (offset : Nat) : Option Place :=
  if offset ≤ text.length then some (placeFrom 1 (lineLengths text) offset) else none

end LetTyping
