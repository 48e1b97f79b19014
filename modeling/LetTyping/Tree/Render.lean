import LetTyping.Text.Decimal
import LetTyping.Tree

/-!
# Writing programs

Trees are written back as source text.  Inside a block every statement has its own line, indented by
two spaces more than the block, and ends with a semicolon.

A function that is called stands in parentheses, since without them the call would belong to its
body.  A tuple of one element keeps a comma behind it, which tells it from an expression in
parentheses.

## Main definitions

* `Tree.render` — a node as source text.
* `Tree.renderProgram` — the statements of a program, one to a line.
-/

namespace LetTyping.Tree

variable {α : Type}

/-- The blanks in front of a line. -/
def indentation (depth : Nat) : String := String.ofList (List.replicate (2 * depth) ' ')

/-- The text of a called node, given its text elsewhere: a function stands in parentheses. -/
def calleeText : Tree α → String → String
  | fn _ _ _, text => "(" ++ text ++ ")"
  | _, text => text

mutual

/-- A node as source text, where the lines of its blocks are indented by `depth` levels. -/
def renderAt (depth : Nat) : Tree α → String
  | int _ value => Decimal.ofInt value
  | var _ name => name
  | tuple _ [e] => "(" ++ renderAt depth e ++ ",)"
  | tuple _ es => "(" ++ renderList depth es ++ ")"
  | array _ es => "[" ++ renderList depth es ++ "]"
  | apply _ f (tuple _ args) =>
    calleeText f (renderAt depth f) ++ "(" ++ renderList depth args ++ ")"
  | apply _ f a => calleeText f (renderAt depth f) ++ "(" ++ renderAt depth a ++ ")"
  | fn _ params body => "fn(" ++ String.intercalate ", " params ++ ") " ++ renderAt depth body
  | decl _ name value => "let " ++ name ++ " = " ++ renderAt depth value
  | assign _ name value => name ++ " = " ++ renderAt depth value
  | ret _ value => "return " ++ renderAt depth value
  | block _ [] => "\x7b\x7d"
  | block _ stmts =>
    "\x7b\n" ++ renderLines (depth + 1) stmts ++ indentation depth ++ "\x7d"
  termination_by structural t => t

/-- Nodes separated by commas. -/
def renderList (depth : Nat) : List (Tree α) → String
  | [] => ""
  | [e] => renderAt depth e
  | e :: es => renderAt depth e ++ ", " ++ renderList depth es
  termination_by structural ts => ts

/-- Statements, one to a line. -/
def renderLines (depth : Nat) : List (Tree α) → String
  | [] => ""
  | s :: ss => indentation depth ++ renderAt depth s ++ ";\n" ++ renderLines depth ss
  termination_by structural ts => ts

end

/-- A node as source text. -/
def render (t : Tree α) : String := t.renderAt 0

/-- A program as source text: the statements of the top-level block, one to a line. -/
def renderProgram : Tree α → String
  | block _ stmts => renderLines 0 stmts
  | t => renderLines 0 [t]

end LetTyping.Tree
