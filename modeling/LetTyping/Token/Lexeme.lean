import LetTyping.Text.Alphabet
import LetTyping.Token

/-!
# Lexemes

A source text is cut into consecutive pieces: blanks, comments, tokens, and stretches that are
neither.  No character is dropped on the way, so a piece's position is the number of bytes before
it.

Words start with an alphabetic character or an underscore and go on with alphabetic or numeric
characters and underscores.  Integers start with a decimal digit and go on with digits and
underscores; the underscores count for nothing.  A comment runs from `//` to the end of the line, or
from `/*` to the next `*/`.

## Main definitions

* `Piece` — a stretch of source text and its role.
* `cut` — the first piece of a text.
* `pieces` — all the pieces of a text.
* `lexemes` — the tokens and faults of a text with their spans, closed by the end of the text.
* `Scanner.next` — the next lexeme of a text, and what is left of the text behind it.
* `tokenize` — the tokens of a text, or its first fault.

## Main results

* `text_pieces` — the pieces of a text, put together again, are the text.
-/

namespace LetTyping

/-- What can be wrong with a stretch of source text. -/
inductive LexCause where
  /-- A character that no token starts with. -/
  | unexpected (c : Char)
  /-- A comment that is never closed. -/
  | openComment
  /-- An integer beyond the largest one of the language. -/
  | largeNumber
  deriving DecidableEq

/-- The role of a stretch of source text. -/
inductive Role where
  | blank
  | comment
  | token (token : Token)
  | fault (cause : LexCause)
  deriving DecidableEq

/-- A stretch of source text and its role. -/
structure Piece where
  role : Role
  text : List Char

/-- The number of bytes of a text. -/
def byteSize : List Char → Nat
  | [] => 0
  | c :: cs => c.utf8Size + byteSize cs

@[simp] theorem byteSize_append (cs ds : List Char) :
    byteSize (cs ++ ds) = byteSize cs + byteSize ds := by
  induction cs with
  | nil => simp [byteSize]
  | cons c cs ih => simp [byteSize, ih, Nat.add_assoc]

/-! ### Cutting off one piece -/

/-- Whether a character may start a word. -/
def startsWord [Alphabet] (c : Char) : Bool := isAlphabetic c || c = '_'

/-- Whether a character may go on a word. -/
def goesOnWord [Alphabet] (c : Char) : Bool := isAlphabetic c || isNumeric c || c = '_'

/-- Whether a character may go on an integer. -/
def goesOnNumber (c : Char) : Bool := c.isDigit || c = '_'

/-- The largest integer literal, the largest number of 63 bits. -/
def maxInt : Nat := 9223372036854775807

/-- The role of a run of digits and underscores. -/
def numberRole (text : List Char) : Role :=
  let n := Decimal.value (text.filter (· ≠ '_'))
  if n ≤ maxInt then .token (.int n) else .fault .largeNumber

/-- Splits a text after its first `*/`. -/
def splitComment : List Char → Option (List Char × List Char)
  | '*' :: '/' :: cs => some (['*', '/'], cs)
  | c :: cs => (splitComment cs).map fun (inner, rest) => (c :: inner, rest)
  | [] => none

/-- Cuts the first piece off a text that starts with a slash, given what follows the slash. -/
def cutSlash : List Char → Piece × List Char
  | '/' :: cs =>
    (⟨.comment, '/' :: '/' :: cs.takeWhile (· ≠ '\n')⟩, cs.dropWhile (· ≠ '\n'))
  | '*' :: cs =>
    match splitComment cs with
    | some (inner, rest) => (⟨.comment, '/' :: '*' :: inner⟩, rest)
    | none => (⟨.fault .openComment, '/' :: '*' :: cs⟩, [])
  | cs => (⟨.fault (.unexpected '/'), ['/']⟩, cs)

/-- Cuts the first piece off a text, given the text's first character and the others. -/
def cut [Alphabet] (c : Char) (cs : List Char) : Piece × List Char :=
  if isBlank c then (⟨.blank, [c]⟩, cs)
  else if c = '/' then cutSlash cs
  else if let some mark := Token.ofMark? c then (⟨.token mark, [c]⟩, cs)
  else if c.isDigit then
    let text := c :: cs.takeWhile goesOnNumber
    (⟨numberRole text, text⟩, cs.dropWhile goesOnNumber)
  else if startsWord c then
    let text := c :: cs.takeWhile goesOnWord
    (⟨.token (.ofWord (String.ofList text)), text⟩, cs.dropWhile goesOnWord)
  else (⟨.fault (.unexpected c), [c]⟩, cs)

theorem splitComment_append {cs inner rest : List Char} (h : splitComment cs = some (inner, rest)) :
    inner ++ rest = cs := by
  fun_induction splitComment cs generalizing inner with
  | case1 cs => cases h; rfl
  | case2 c cs _ ih =>
    obtain ⟨⟨i, r⟩, hs, hc⟩ := Option.map_eq_some_iff.1 h
    cases hc
    simp [ih hs]
  | case3 => simp at h

/-- The piece cut off a text that starts with a slash and what is left of it are the text. -/
theorem cutSlash_append (cs : List Char) : (cutSlash cs).1.text ++ (cutSlash cs).2 = '/' :: cs := by
  unfold cutSlash
  split
  · simp
  · split
    · next h => simp [splitComment_append h]
    · simp
  · simp

/-- The piece cut off a text and what is left of the text are the text. -/
theorem cut_append [Alphabet] (c : Char) (cs : List Char) :
    (cut c cs).1.text ++ (cut c cs).2 = c :: cs := by
  unfold cut
  split
  · simp
  split
  · next h => simp [cutSlash_append, h]
  split
  · simp
  split
  · simp
  split <;> simp

/-- No piece is empty. -/
theorem cut_ne_nil [Alphabet] (c : Char) (cs : List Char) : (cut c cs).1.text ≠ [] := by
  unfold cut cutSlash
  repeat' split
  all_goals simp

/-- What is left of a text is shorter than the text. -/
theorem length_cut_lt [Alphabet] (c : Char) (cs : List Char) :
    (cut c cs).2.length < (c :: cs).length := by
  rw [← cut_append c cs, List.length_append]
  have := List.length_pos_iff.2 (cut_ne_nil c cs)
  omega

/-! ### All the pieces -/

/-- The pieces of a text, in order. -/
def pieces [Alphabet] : List Char → List Piece
  | [] => []
  | c :: cs => (cut c cs).1 :: pieces (cut c cs).2
  termination_by cs => cs.length
  decreasing_by exact length_cut_lt c cs

@[simp] theorem pieces_nil [Alphabet] : pieces [] = [] := by rw [pieces]

/-- The pieces of a text, put together again, are the text. -/
theorem text_pieces [Alphabet] (cs : List Char) : (pieces cs).flatMap Piece.text = cs := by
  fun_induction pieces cs with
  | case1 => rfl
  | case2 c cs ih => rw [List.flatMap_cons, ih, cut_append]

/-! ### Lexemes -/

/-- A token or a fault, with its span. -/
abbrev Lexeme := Located (Except LexCause Token)

/-- The lexemes among pieces that start at a position, closed by the end of the text. -/
def locate : Nat → List Piece → List Lexeme
  | start, [] => [⟨.ok .eof, ⟨start, start⟩⟩]
  | start, p :: ps =>
    let stop := start + byteSize p.text
    match p.role with
    | .blank | .comment => locate stop ps
    | .token t => ⟨.ok t, ⟨start, stop⟩⟩ :: locate stop ps
    | .fault cause => ⟨.error cause, ⟨start, stop⟩⟩ :: locate stop ps

/-- The tokens and faults of a text, closed by the end of the text.  Reading goes on after a fault
with what follows it. -/
def lexemes [Alphabet] (source : String) : List Lexeme := locate 0 (pieces source.toList)

/-- What is left of a text, and where it starts. -/
structure Scanner where
  position : Nat
  rest : List Char

namespace Scanner

/-- Reads the next lexeme.  Blanks and comments are cut off until there is one; where nothing is
left, it is the end of the text, and nothing is left behind it. -/
def next [Alphabet] : Scanner → Lexeme × Scanner
  | ⟨position, []⟩ => (⟨.ok .eof, ⟨position, position⟩⟩, ⟨position, []⟩)
  | ⟨position, c :: cs⟩ =>
    let stop := position + byteSize (cut c cs).1.text
    let left : Scanner := ⟨stop, (cut c cs).2⟩
    match (cut c cs).1.role with
    | .blank | .comment => next left
    | .token t => (⟨.ok t, ⟨position, stop⟩⟩, left)
    | .fault cause => (⟨.error cause, ⟨position, stop⟩⟩, left)
  termination_by s => s.rest.length
  decreasing_by all_goals exact length_cut_lt c cs

/-- Reads lexemes, as many as asked for. -/
def read [Alphabet] : Nat → Scanner → List Lexeme
  | 0, _ => []
  | count + 1, s => s.next.1 :: read count s.next.2

end Scanner

/-- The first `count` lexemes of a text. -/
def firstLexemes [Alphabet] (source : String) (count : Nat) : List Lexeme :=
  Scanner.read count ⟨0, source.toList⟩

/-- The token of a lexeme, or its fault. -/
def Lexeme.token? (l : Lexeme) : Except (Located LexCause) (Located Token) :=
  match l.val with
  | .ok t => .ok ⟨t, l.span⟩
  | .error cause => .error ⟨cause, l.span⟩

/-- The tokens of a text with the end of the text as the last one, or the first fault. -/
def tokenize [Alphabet] (source : String) : Except (Located LexCause) (List (Located Token)) :=
  (lexemes source).mapM Lexeme.token?

end LetTyping
