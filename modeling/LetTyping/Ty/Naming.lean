import LetTyping.Text.Decimal
import LetTyping.Ty

/-!
# Writing types

Type variables are named `a`, `b`, …, `z`, `a1`, `b1`, … in the order in which they appear.  Types
that are written one after another under one naming agree on their names.

A function type is written `P -> R`.  A tuple of parameters is written as a plain list in
parentheses; any other parameter type that is itself a function stands in parentheses.  A tuple type
of one element keeps a comma behind it.

## Main definitions

* `variableName` — the name of the variable that appears as number `i`.
* `Naming` — the variables named so far.
* `Term.render` — a type as text, for given names of its variables.
* `Naming.render` — a type as text under a naming, and the naming with the type's variables.
-/

namespace LetTyping

/-- The name of the variable that appears as number `i`: a letter and, after the first 26, a
number. -/
def variableName (i : Nat) : String :=
  let letter := String.singleton (Char.ofNat ('a'.toNat + i % 26))
  if i < 26 then letter else letter ++ Decimal.ofNat (i / 26)

/-- The text of a constructor other than a function type, given the text of its arguments.  In the
place of a parameter a tuple of one element has no comma behind it. -/
def conText (name : String) (asParam : Bool) (count : Nat) (args : String) : String :=
  if name = Ty.productName then
    if count = 1 ∧ !asParam then "(" ++ args ++ ",)" else "(" ++ args ++ ")"
  else if count = 0 then name
  else name ++ "<" ++ args ++ ">"

mutual

/-- A type as text, for given names of its variables.  With `asParam` it stands before an arrow. -/
def Term.render {V : Type} (name : V → String) (asParam : Bool) : Term V → String
  | .var v => name v
  | .con n args =>
    if n = Ty.arrowName ∧ args.length = 2 then
      if asParam then "(" ++ Term.renderArrow name args ++ ")" else Term.renderArrow name args
    else conText n asParam args.length (Term.renderList name args)
  termination_by structural t => t

/-- A parameter type and a result type with an arrow between them. -/
def Term.renderArrow {V : Type} (name : V → String) : List (Term V) → String
  | [param, result] => Term.render name true param ++ " -> " ++ Term.render name false result
  | _ => ""
  termination_by structural ts => ts

/-- Types separated by commas. -/
def Term.renderList {V : Type} (name : V → String) : List (Term V) → String
  | [] => ""
  | [t] => Term.render name false t
  | t :: ts => Term.render name false t ++ ", " ++ Term.renderList name ts
  termination_by structural ts => ts

end

/-- The numbers of the variables named so far, in the order of their names. -/
abbrev Naming := List Nat

namespace Naming

/-- The naming with one more variable, unless it has a name already. -/
def add (names : Naming) (v : TVar) : Naming := if v.id ∈ names then names else names ++ [v.id]

/-- The name of a variable. -/
def nameOf (names : Naming) (v : TVar) : String := variableName (names.idxOf v.id)

/-- The naming with all the variables of a type. -/
def addAll (names : Naming) (t : Ty) : Naming := t.vars.foldl add names

/-- A type as text, and the naming with its variables. -/
def render (names : Naming) (t : Ty) : String × Naming :=
  let named := names.addAll t
  (t.render named.nameOf false, named)

/-- Types as texts that agree on the names of variables. -/
def renderAll (names : Naming) : List Ty → List String
  | [] => []
  | t :: ts => (names.render t).1 :: renderAll (names.render t).2 ts

end Naming

/-- A type as text on its own. -/
def Ty.text (t : Ty) : String := (Naming.render [] t).1

/-- Two types as texts that agree on the names of variables. -/
def Ty.texts (s t : Ty) : String × String :=
  let (first, names) := Naming.render [] s
  (first, (names.render t).1)

end LetTyping
