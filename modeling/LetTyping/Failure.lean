import LetTyping.Infer

/-!
# Failed applications

A failed application leaves a mark in its type instead of ending inference.  Once a tree is
inferred, the applications that failed on their own account are collected as problems.  An
application whose function or argument carries a mark already is left out, so that one mistake is
reported once.

## Main definitions

* `carriesFailure` — whether a node's type has a mark of failure in it.
* `failure?` — the problem of a node that failed on its own account.
* `failures` — all such problems of a tree.
-/

namespace LetTyping

/-- Whether a node has a type with a mark of failure in it. -/
def carriesFailure (s : Subst) (t : Tree Mark) : Bool :=
  t.label.typing.any fun typing => (s.apply typing.ty).hasFailure

/-- The function type and the argument type of a failed application, from its mark. -/
def Ty.failureParts? : Ty → Option (Ty × Ty)
  | .con _ [fn, .con _ (arg :: _)] => some (fn, arg)
  | _ => none

/-- The problem of an application that failed on its own account. -/
def failure? (s : Subst) : Tree Mark → Option Problem
  | .apply m fn arg => do
    let typing ← m.typing
    if !typing.ty.isFailure || carriesFailure s fn || carriesFailure s arg then none
    else
      let (function, argument) ← typing.ty.failureParts?
      let (functionText, argumentText) := Ty.texts (s.apply function) (s.apply argument)
      return ⟨.application functionText argumentText, m.span⟩
  | _ => none

/-- The problems of all applications that failed on their own account, parents first. -/
def failures (s : Subst) (root : Tree Mark) : List Problem := root.subtrees.filterMap (failure? s)

end LetTyping
