import LetTyping.Term

/-!
# Types

A type is a term whose constructors are the integers, the unit type, functions, tuples, and the mark
of a failed application.

A type variable is known by its number.  It may carry a tag, which says what it was made for and has
no other meaning: two occurrences of one number are one variable, whatever their tags.

## Main definitions

* `TVar`, `Ty` — type variables and types.
* `Ty.int`, `Ty.unit`, `Ty.arrow`, `Ty.product`, `Ty.failure` — the types of the language.
* `Ty.same` — equality of types up to tags.
* `TVar.distinct` — the first occurrence of every variable.
-/

namespace LetTyping

/-- A type variable. -/
structure TVar where
  /-- The number of the variable. -/
  id : Nat
  /-- What the variable was made for. -/
  tag : Option String
  deriving DecidableEq, Inhabited

/-- The first occurrence of every variable, in order. -/
def TVar.distinct (vs : List TVar) : List TVar := vs.eraseDupsBy fun v w => v.id == w.id

/-- The types of the language. -/
abbrev Ty := Term TVar

namespace Ty

/-- The name of the function constructor, which has a parameter type and a result type. -/
def arrowName : String := "Arrow"

/-- The name of the tuple constructor. -/
def productName : String := "Product"

/-- The name of the constructor that marks a failed application. -/
def failureName : String := "!Fail!"

/-- The type of integers. -/
def int : Ty := .con "Int" []

/-- The type of declarations and of empty blocks. -/
def unit : Ty := .con "Unit" []

/-- The type of functions from `param` to `result`. -/
def arrow (param result : Ty) : Ty := .con arrowName [param, result]

/-- The type of tuples. -/
def product (elems : List Ty) : Ty := .con productName elems

/-- The mark of a failed application of a function of type `fn` that was tried at the type
`attempted`. -/
def failure (fn attempted : Ty) : Ty := .con failureName [fn, attempted]

/-- Whether the type is the mark of a failed application. -/
def isFailure (t : Ty) : Bool := t.isCon failureName

/-- Whether the mark of a failed application occurs in the type. -/
def hasFailure (t : Ty) : Bool := t.mentions failureName

/-- The type without its tags. -/
def untagged (t : Ty) : Term Nat := t.map TVar.id

/-- Whether two types are equal up to tags. -/
def same (s t : Ty) : Bool := s.untagged = t.untagged

end Ty

end LetTyping
