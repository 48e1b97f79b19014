import LetTyping.Token.Lexeme
import LetTyping.Tree

/-!
# Parsing

Programs are read from tokens by recursive descent, one token ahead and, to tell an assignment from
an expression, two.

```
program   := statement*
statement := ("let" IDENT "=" expr | "return" expr | IDENT "=" expr | expr) ";"?
expr      := primary ("(" list ")")*
primary   := INT | IDENT | "(" ")" | "(" expr ")" | "(" expr "," list ")" | "[" list "]"
           | "fn" "(" (IDENT ("," IDENT)*)? ")" expr | block
block     := open-brace statement* close-brace
list      := (expr ("," expr)* ","?)?
```

The arguments of a call are one tuple.  A tree is labelled with the span of its first token to its
last one; a parenthesized expression is the expression itself, without its parentheses.

Expressions nest, so the readers of the other forms are given the reader of the expressions inside
them, and `Reader.expr` ties the knot.  The knot and the loops take a bound on their depth.  Each
level consumes a token, so a bound larger than the number of tokens is never reached.

The tokens of a text end with an end-of-text token, which no reader consumes, so nothing behind it
is looked at.  Tokens may also end without one.

## Main definitions

* `ParseCause` — why tokens are no program.
* `parseTokens` — the tree of a list of tokens.
-/

namespace LetTyping

/-- Why tokens are no program. -/
inductive ParseCause where
  /-- A token other than the expected one. -/
  | unexpected (found expected : String)
  /-- The tokens end too early. -/
  | endOfInput
  deriving DecidableEq

/-- A reader consumes tokens from the front of a list.  It fails at the span of the token that does
not fit. -/
abbrev Reader := StateT (List (Located Token)) (Except (Located ParseCause))

namespace Reader

/-- Fails at the next token, where something else was expected.  Where no token is left, the fault
is at `stop`. -/
def unexpected {α : Type} (stop : Span) (expected : String) : Reader α := fun tokens =>
  match tokens with
  | [] => .error ⟨.endOfInput, stop⟩
  | t :: _ =>
    if t.val = .eof then .error ⟨.endOfInput, t.span⟩
    else .error ⟨.unexpected t.val.text expected, t.span⟩

/-- Where the next token starts. -/
def start (stop : Span) : Reader Nat := fun tokens =>
  .ok ((tokens.head?.map fun t => t.span.start).getD stop.start, tokens)

/-- Consumes the next token if it is `token`, and gives its span. -/
def accept (token : Token) : Reader (Option Span) := fun tokens =>
  match tokens with
  | t :: rest => if t.val = token then .ok (some t.span, rest) else .ok (none, tokens)
  | [] => .ok (none, [])

/-- Consumes the next token, which must be `token`, and gives its span. -/
def expect (stop : Span) (token : Token) : Reader Span := do
  match ← accept token with
  | some span => return span
  | none => unexpected stop token.text

/-- Consumes the next token, which must be an identifier, and gives its name. -/
def ident (stop : Span) : Reader String := fun tokens =>
  match tokens with
  | ⟨.ident name, _⟩ :: rest => .ok (name, rest)
  | _ => unexpected stop "identifier" tokens

/-- Reads the parameters of a function up to the closing parenthesis, at least one of them. -/
def params (stop : Span) : Nat → Reader (List String)
  | 0 => unexpected stop "identifier"
  | bound + 1 => do
    let name ← ident stop
    match ← accept .comma with
    | some _ =>
      let names ← params stop bound
      return name :: names
    | none =>
      let _ ← expect stop .closeParen
      return [name]

/-! ### Forms around expressions

In this section `inner` reads the expressions inside the form. -/

/-- Reads expressions separated by commas up to the token `close`, and gives them with the span of
that token.  The last expression may have a comma after it. -/
def list (stop : Span) (inner : Reader (Tree Span)) (close : Token) :
    Nat → Reader (List (Tree Span) × Span)
  | 0 => unexpected stop "expression"
  | bound + 1 => do
    match ← accept close with
    | some closing => return ([], closing)
    | none =>
      let head ← inner
      match ← accept .comma with
      | some _ =>
        let (tail, closing) ← list stop inner close bound
        return (head :: tail, closing)
      | none =>
        let closing ← expect stop close
        return ([head], closing)

/-- Reads what follows an opening parenthesis at `first`: the end of an empty tuple, an expression
in parentheses, or a tuple. -/
def parenthesized (stop : Span) (inner : Reader (Tree Span)) (bound first : Nat) :
    Reader (Tree Span) := do
  match ← accept .closeParen with
  | some closing => return .tuple ⟨first, closing.stop⟩ []
  | none =>
    let head ← inner
    match ← accept .closeParen with
    | some _ => return head
    | none =>
      let _ ← expect stop .comma
      let (tail, closing) ← list stop inner .closeParen bound
      return .tuple ⟨first, closing.stop⟩ (head :: tail)

/-- Reads what follows an opening bracket at `first`. -/
def array (stop : Span) (inner : Reader (Tree Span)) (bound first : Nat) : Reader (Tree Span) := do
  let (elems, closing) ← list stop inner .closeBracket bound
  return .array ⟨first, closing.stop⟩ elems

/-- Reads what follows the word `fn` at `first`. -/
def function (stop : Span) (inner : Reader (Tree Span)) (bound first : Nat) :
    Reader (Tree Span) := do
  let _ ← expect stop .openParen
  let names ← match ← accept .closeParen with
    | some _ => pure []
    | none => params stop bound
  let body ← inner
  return .fn ⟨first, body.label.stop⟩ names body

/-- Reads what follows the word `let` at `first`. -/
def declaration (stop : Span) (inner : Reader (Tree Span)) (first : Nat) : Reader (Tree Span) := do
  let name ← ident stop
  let _ ← expect stop .equals
  let value ← inner
  return .decl ⟨first, value.label.stop⟩ name value

/-- Reads what follows the word `return` at `first`. -/
def returned (inner : Reader (Tree Span)) (first : Nat) : Reader (Tree Span) := do
  let value ← inner
  return .ret ⟨first, value.label.stop⟩ value

/-- Reads what follows the name and the equals sign of an assignment that starts at `first`. -/
def assigned (inner : Reader (Tree Span)) (first : Nat) (name : String) : Reader (Tree Span) := do
  let value ← inner
  return .assign ⟨first, value.label.stop⟩ name value

/-- Reads a statement without the semicolon that may follow it. -/
def bareStatement (stop : Span) (inner : Reader (Tree Span)) : Reader (Tree Span) := fun tokens =>
  match tokens with
  | ⟨.letWord, span⟩ :: rest => declaration stop inner span.start rest
  | ⟨.returnWord, span⟩ :: rest => returned inner span.start rest
  | ⟨.ident name, span⟩ :: ⟨.equals, _⟩ :: rest => assigned inner span.start name rest
  | _ => inner tokens

/-- Reads a statement and the semicolon that may follow it. -/
def statement (stop : Span) (inner : Reader (Tree Span)) : Reader (Tree Span) := do
  let stmt ← bareStatement stop inner
  let _ ← accept .semicolon
  return stmt

/-- Whether statements end before the given tokens: at the end of the text or, inside a block, at a
closing brace. -/
def statementsEnd (inBlock : Bool) : List (Located Token) → Bool
  | [] => true
  | t :: _ => t.val = .eof || inBlock && t.val = .closeBrace

/-- Reads statements up to where they end. -/
def statements (stop : Span) (inner : Reader (Tree Span)) (inBlock : Bool) :
    Nat → Reader (List (Tree Span))
  | 0 => unexpected stop "expression"
  | bound + 1 => do
    if statementsEnd inBlock (← get) then
      return []
    else
      let head ← statement stop inner
      let tail ← statements stop inner inBlock bound
      return head :: tail

/-- Reads what follows an opening brace at `first`. -/
def block (stop : Span) (inner : Reader (Tree Span)) (bound first : Nat) : Reader (Tree Span) := do
  let stmts ← statements stop inner true bound
  let closing ← expect stop .closeBrace
  return .block ⟨first, closing.stop⟩ stmts

/-- Reads an expression that is not a call. -/
def primary (stop : Span) (inner : Reader (Tree Span)) (bound : Nat) : Reader (Tree Span) :=
  fun tokens =>
    match tokens with
    | ⟨.int value, span⟩ :: rest => .ok (.int span value, rest)
    | ⟨.ident name, span⟩ :: rest => .ok (.var span name, rest)
    | ⟨.openParen, span⟩ :: rest => parenthesized stop inner bound span.start rest
    | ⟨.openBracket, span⟩ :: rest => array stop inner bound span.start rest
    | ⟨.fnWord, span⟩ :: rest => function stop inner bound span.start rest
    | ⟨.openBrace, span⟩ :: rest => block stop inner bound span.start rest
    | _ => unexpected stop "expression" tokens

/-- Reads the argument lists that follow the expression `head`, each of which makes it a call.  The
calls start at `first`, where the expression starts. -/
def calls (stop : Span) (inner : Reader (Tree Span)) (first : Nat) (head : Tree Span) :
    Nat → Reader (Tree Span)
  | 0 => unexpected stop "expression"
  | bound + 1 => do
    match ← accept .openParen with
    | none => return head
    | some opening =>
      let (args, closing) ← list stop inner .closeParen bound
      let arg := Tree.tuple ⟨opening.start, closing.stop⟩ args
      calls stop inner first (.apply ⟨first, closing.stop⟩ head arg) bound

/-! ### Expressions and programs -/

/-- Reads an expression. -/
def expr (stop : Span) : Nat → Reader (Tree Span)
  | 0 => unexpected stop "expression"
  | bound + 1 => do
    let first ← start stop
    let head ← primary stop (expr stop bound) bound
    calls stop (expr stop bound) first head bound

/-- Reads a program: all the tokens up to the end of the text are statements of one block. -/
def program (stop : Span) (bound : Nat) : Reader (Tree Span) := do
  let first ← start stop
  let stmts ← statements stop (expr stop bound) false bound
  return .block ⟨first, (stmts.getLast?.map fun s => s.label.stop).getD first⟩ stmts

end Reader

/-- The tree of a list of tokens.  Where there is no end-of-text token, the end has the empty span
at position 0. -/
def parseTokens (tokens : List (Located Token)) : Except (Located ParseCause) (Tree Span) :=
  (Reader.program ⟨0, 0⟩ (tokens.length + 1)).run' tokens

end LetTyping
