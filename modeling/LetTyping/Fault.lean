import LetTyping.Tree.Parse

/-!
# Faults and problems

What can be wrong with a program.  A *fault* stops the work on a program: its text has no tokens,
its tokens have no tree, or its tree has no typing.  A *problem* is something wrong with the types
alone; the ones that are found in a program with a typing are collected and reported together.

## Main definitions

* `TypeCause` — what can be wrong with the types of a program.
* `Problem` — such a cause with the span it was found at.
* `Fault` — what stops the work on a program.
* `LexCause.message`, `ParseCause.message`, `TypeCause.message`, `Fault.message` — the texts.
-/

namespace LetTyping

/-- What can be wrong with the types of a program.  Types appear as texts. -/
inductive TypeCause where
  /-- Two types differ that have to be equal.  The third part says what was being checked. -/
  | mismatch (expected found : String) (during : Option String)
  /-- A type would have to contain itself.  The third part says what was being checked. -/
  | infinite (var ty : String) (during : Option String)
  /-- An array literal, which has no type. -/
  | arrayLiteral
  /-- An assignment, which has no type. -/
  | assignment (name : String)
  /-- A declaration whose value uses the declared name. -/
  | recursive (name : String)
  /-- A function that cannot be applied to its argument. -/
  | application (function argument : String)
  /-- A name that is declared nowhere. -/
  | unbound (name : String)
  deriving DecidableEq

/-- Something wrong with the types of a program, and where. -/
abbrev Problem := Located TypeCause

/-- What stops the work on a program, and where. -/
inductive Fault where
  | lex (fault : Located LexCause)
  | parse (fault : Located ParseCause)
  | type (problem : Problem)
  deriving DecidableEq

/-- Where the fault is. -/
def Fault.span : Fault → Span
  | lex e => e.span
  | parse e => e.span
  | type e => e.span

/-- Says what was being checked, unless that is said already. -/
def TypeCause.whileChecking (description : String) : TypeCause → TypeCause
  | mismatch expected found none => mismatch expected found (some description)
  | infinite var ty none => infinite var ty (some description)
  | cause => cause

/-! ### Texts -/

/-- What is wrong with a stretch of source text, in words. -/
def LexCause.message : LexCause → String
  | unexpected c => "Unexpected character '" ++ String.singleton c ++ "'"
  | openComment => "Unterminated comment"
  | largeNumber => "Invalid integer literal"

/-- Why tokens are no program, in words. -/
def ParseCause.message : ParseCause → String
  | unexpected found expected => "Unexpected token '" ++ found ++ "', expected " ++ expected
  | endOfInput => "Unexpected end of input"

/-- What is wrong with the types of a program, in words. -/
def TypeCause.message : TypeCause → String
  | mismatch expected found _ => "Cannot unify types: expected " ++ expected ++ ", found " ++ found
  | infinite var ty _ => "Infinite type: " ++ var ++ " occurs in " ++ ty
  | arrayLiteral => "Array literals are not supported"
  | assignment name => "Assignment to '" ++ name ++ "' is not supported"
  | recursive name => "Declaration '" ++ name ++ "' refers to itself"
  | application function argument => "Cannot apply " ++ function ++ " to " ++ argument
  | unbound name => "Undefined variable '" ++ name ++ "'"

/-- What stopped the work on a program, in words. -/
def Fault.message : Fault → String
  | lex e => "Lexer error: " ++ e.val.message
  | parse e => "Parser error: " ++ e.val.message
  | type e => "Type error: " ++ e.val.message

end LetTyping
