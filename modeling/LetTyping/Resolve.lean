import LetTyping.State

/-!
# Resolving names

The free names of a context are resolved against declarations.  A declared name gets an instance of
its declaration, one for all its uses in the context; the type of the instance has to be equal to
the types the name is used at, and the names that the declaration uses are resolved in turn.  A name
that is not declared passes out with its uses.

Names that are being resolved form a chain.  A name that comes up again while it is on the chain is
declared in terms of itself.  All the names on the chain are declared and no two are equal, so the
chain is never longer than the table of declarations.

## Main definitions

* `Resolve` — computations that also collect the uses of undeclared names.
* `resolveNames` — resolves the names of a context, given the chain.
* `resolve` — resolves the names of a context and gives the uses of the undeclared ones.
-/

namespace LetTyping

/-- Computations that change the state, collect the uses of undeclared names, and may end with a
problem. -/
abbrev Resolve := ExceptT Problem (StateT Context (StateM State))

/-- What is being checked while a declared name is resolved. -/
def useOf (name : String) : String := "use of '" ++ name ++ "'"

/-- Lets the uses of an undeclared name pass out. -/
def passOut (name : String) (uses : List Ty) : Resolve Unit :=
  modifyThe Context fun out => uses.foldl (fun out t => out.add name t) out

/-- Makes the type of a declared name's instance equal to every type the name is used at. -/
def meetUses (span : Span) (name : String) (ty : Ty) (uses : List Ty) : Infer Unit :=
  uses.forM fun use => equate span (useOf name) ty use

/-- A computation of inference among those that collect uses. -/
def Infer.collecting {α : Type} (x : Infer α) : Resolve α := fun out st =>
  let (result, st) := x st
  ((result, out), st)

/-- Resolves the names of a context against declarations.  `chain` holds the names that are being
resolved, and at most `depth` more can be. -/
def resolveNames (defined : Defined) (span : Span) (depth : Nat) (chain : List String)
    (context : Context) : Resolve Unit :=
  context.forM fun (name, uses) =>
    match Table.get? defined name with
    | none => passOut name uses
    | some declared =>
      if name ∈ chain then throw ⟨.recursive name, span⟩
      else
        match depth with
        | 0 => throw ⟨.recursive name, span⟩
        | depth + 1 => do
          let copy ← instantiate declared
          record (.resolved name uses.length)
          (meetUses span name copy.ty uses).collecting
          resolveNames defined span depth (name :: chain) copy.context

/-- Resolves the names of a context against declarations and adds the uses of undeclared names to
`out`.  These are given also when the resolution ends with a problem. -/
def resolveInto (out : Context) (defined : Defined) (span : Span) (context : Context) :
    StateM State (Except Problem Unit × Context) :=
  (resolveNames defined span defined.length [] context).run.run out

/-- Resolves the names of a context against declarations and gives `out` together with the uses of
undeclared names. -/
def resolve (out : Context) (defined : Defined) (span : Span) (context : Context) :
    Infer Context := do
  match ← resolveInto out defined span context with
  | (.ok (), out) => return out
  | (.error problem, _) => throw problem

end LetTyping
