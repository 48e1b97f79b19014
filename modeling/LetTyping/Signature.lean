import LetTyping.Infer

/-!
# Signatures

After inference every declaration is reported with its type.  The type is that of a fresh instance,
whose free names are resolved against the declarations around it, innermost first.  A scope in which
that fails ends the resolution, and the type is reported as far as it is known.

## Main definitions

* `Signature` — a declared name with the text of its type.
* `signatures` — the signatures of all declarations of a tree, in source order.
-/

namespace LetTyping

/-- A declared name with the text of its type. -/
structure Signature where
  /-- The declared name. -/
  name : String
  /-- The text of its type. -/
  type : String
  /-- Where the declaration stands. -/
  span : Span
  deriving DecidableEq

/-- Resolves the names of a context through scopes, innermost first. -/
def resolveThrough (span : Span) : List Defined → Context → Infer Unit
  | [], _ => return
  | scope :: scopes, context => do
    let rest ← resolve [] scope span context
    resolveThrough span scopes rest

/-- The signature of a declaration at `span`, from the typing of its value. -/
def signature (scopes : List Defined) (span : Span) (name : String) (value : Typing) :
    StateM State Signature := do
  let copy ← instantiate value
  match ← (resolveThrough span scopes copy.context).run with
  | .ok () => pure ()
  | .error problem => record (.partlyUnresolved name (Fault.type problem).message)
  return ⟨name, ((← get).subst.apply copy.ty).text, span⟩

mutual

/-- The signatures of the declarations of a tree, given the declarations around it, innermost
first. -/
def signatures (scopes : List Defined) (t : Tree Mark) : StateM State (List Signature) :=
  match t with
  | .int _ _ | .var _ _ => return []
  | .tuple _ elems | .array _ elems => signaturesList scopes elems
  | .apply _ fn arg => do
    let first ← signatures scopes fn
    let rest ← signatures scopes arg
    return first ++ rest
  | .fn _ _ body => signatures scopes body
  | .decl m name value => do
    let own ← match value.label.typing with
      | some typing => do
        let own ← signature scopes m.span name typing
        pure [own]
      | none => pure []
    let rest ← signatures scopes value
    return own ++ rest
  | .assign _ _ value => signatures scopes value
  | .ret _ value => signatures scopes value
  | .block m stmts =>
    match m.typing with
    | some typing => signaturesList (typing.defined :: scopes) stmts
    | none => return []
  termination_by structural t

/-- The signatures of the declarations of some trees. -/
def signaturesList (scopes : List Defined) (ts : List (Tree Mark)) :
    StateM State (List Signature) :=
  match ts with
  | [] => return []
  | t :: ts => do
    let first ← signatures scopes t
    let rest ← signaturesList scopes ts
    return first ++ rest
  termination_by structural ts

end

end LetTyping
