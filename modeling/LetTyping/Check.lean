import LetTyping.Failure
import LetTyping.Prelude
import LetTyping.Signature

/-!
# Checking programs

A program is read, inferred, and its remaining free names are resolved against the prelude.  Names
that are left then, and applications that failed, are the problems of the program; everything else
that goes wrong is a fault, and the program has no result.

## Main definitions

* `firstUse` — where a name is first used without being bound.
* `Checked` — a program that was inferred to the end.
* `check` — checks a source text.
-/

namespace LetTyping

/-! ### Free uses -/

/-- Whether a statement declares the name. -/
def declares {α : Type} (name : String) : Tree α → Bool
  | .decl _ n _ => n = name
  | _ => false

mutual

/-- The label of the first use of a name that is bound neither by a parameter around it nor by an
earlier declaration of its block. -/
def firstUse {α : Type} (name : String) : Tree α → Option α
  | .int _ _ => none
  | .var l n => if n = name then some l else none
  | .tuple _ elems | .array _ elems => firstUseList name elems
  | .apply _ fn arg => (firstUse name fn).or (firstUse name arg)
  | .fn _ params body => if name ∈ params then none else firstUse name body
  | .decl _ _ value | .assign _ _ value | .ret _ value => firstUse name value
  | .block _ stmts => firstUseBlock name stmts
  termination_by structural t => t

/-- The first such use in one of some trees. -/
def firstUseList {α : Type} (name : String) : List (Tree α) → Option α
  | [] => none
  | t :: ts => (firstUse name t).or (firstUseList name ts)
  termination_by structural ts => ts

/-- The first such use in the statements of a block, up to a declaration of the name. -/
def firstUseBlock {α : Type} (name : String) : List (Tree α) → Option α
  | [] => none
  | t :: ts => if declares name t then none else (firstUse name t).or (firstUseBlock name ts)
  termination_by structural ts => ts

end

/-! ### Programs -/

/-- Reads a program. -/
def parse [Alphabet] (source : String) : Except Fault (Tree Span) :=
  match tokenize source with
  | .error e => .error (.lex e)
  | .ok tokens =>
    match parseTokens tokens with
    | .error e => .error (.parse e)
    | .ok tree => .ok tree

/-- A program that was inferred to the end. -/
structure Checked where
  /-- The tree with the typings of its nodes. -/
  root : Tree Mark
  /-- The typing of the whole program. -/
  typing : Typing
  /-- Unbound names and failed applications, in source order. -/
  problems : List Problem
  /-- The types of all declarations, in source order. -/
  signatures : List Signature
  /-- The state after all the work. -/
  state : State

/-- The problem of a name that is bound nowhere in a program. -/
def unboundProblem (root : Tree Mark) (name : String) : Problem :=
  ⟨.unbound name, (((firstUse name root).getD root.label).span)⟩

/-- Whether a problem stands before another one or at the same place. -/
def startsBefore (p q : Problem) : Bool := p.span.start ≤ q.span.start

/-- What is left to do for a program with a typing: its free names are resolved against the prelude
or, without one, stay as they are. -/
def checkInferred (withPrelude : Bool) (root : Tree Mark) (typing : Typing) : Infer Checked := do
  record (.inferred (← get).count typing.context.length)
  let builtins ← if withPrelude then prelude else pure []
  let unresolved ← resolve [] builtins root.label.span typing.context
  record (.preludeResolved unresolved.length)
  let unbound := (Table.keys unresolved).map (unboundProblem root)
  let problems := (unbound ++ failures (← get).subst root).mergeSort startsBefore
  let signatures ← signatures [builtins] root
  record (.checked problems.length)
  return ⟨root, typing, problems, signatures, ← get⟩

/-- Checks a tree. -/
def checkTree (withPrelude : Bool) (tree : Tree Span) : Infer Checked := do
  match ← infer tree.unmarked with
  | (.ok typing, root) => checkInferred withPrelude root typing
  | (.error problem, _) => throw problem

/-- Checks a source text.  Gives the events of the work beside its result. -/
def check [Alphabet] (withPrelude : Bool) (source : String) : Except Fault Checked × List Event :=
  match parse source with
  | .error fault => (.error fault, [])
  | .ok tree =>
    let (result, state) := (checkTree withPrelude tree).run.run {}
    (result.mapError .type, state.log.reverse)

namespace Checked

/-- The text of the program's type. -/
def programType (c : Checked) : String := (c.state.subst.apply c.typing.ty).text

/-- Whether the program has no problems. -/
def isOk (c : Checked) : Bool := c.problems.isEmpty

/-- One line for every declaration. -/
def declarationLines (c : Checked) : String :=
  String.join (c.signatures.map fun s => "let " ++ s.name ++ ": " ++ s.type ++ "\n")

end Checked

end LetTyping
