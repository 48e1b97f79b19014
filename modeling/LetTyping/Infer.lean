import LetTyping.Resolve

/-!
# Type inference

The typing of a node is made from the typings of the nodes below it.  There is no environment: the
free names of an expression travel upward in its context, until they meet the parameters of a
function or the declarations of a block.

A node keeps the typing that was found for it and is never inferred again.  When inference ends with
a problem, the nodes that were finished until then keep their typings.

A function that cannot be applied to its argument is no reason to stop: the node gets a type that
marks the failure.

## Main definitions

* `Mark` — the label of a node: its span and, once it is known, its typing.
* `infer` — the typing of a node, and the tree with the typings found on the way.
* `applyTypings`, `bindParams`, `absorb` — the rules for applications, functions and statements.
-/

namespace LetTyping

/-- The label of a node for inference. -/
structure Mark where
  /-- Where the node stands. -/
  span : Span
  /-- The typing that was found for the node. -/
  typing : Option Typing := none

/-- The tree of a program for inference, with no typings yet. -/
def Tree.unmarked (t : Tree Span) : Tree Mark := t.map fun span => ⟨span, none⟩

/-! ### Rules -/

/-- The typing of a used name: a fresh variable, which is how the name is used. -/
def useTyping (name : String) : StateM State Typing := do
  let t ← freshTagged (some useTag)
  return ⟨t, .singleton name t, []⟩

/-- The typing of a tuple, from those of its elements. -/
def tupleTyping (elems : List Typing) : Typing :=
  ⟨.product (elems.map Typing.ty), elems.foldl (fun c t => c.union t.context) [], []⟩

/-- The typing of an application at `span`, from the typings of the function and the argument and an
instance of each.  The function has to take the argument's type to a fresh variable. -/
def applyTypings (span : Span) (fnRaw fn argRaw arg : Typing) : StateM State Typing := do
  let result ← fresh
  match ← unifyTypes fn.ty (.arrow arg.ty result) with
  | .ok () => return ⟨result, fn.context.union arg.context, []⟩
  | .error cause =>
    record (.applicationFailed cause.message span.start)
    let other ← fresh
    return .closed (.failure fnRaw.ty (.arrow argRaw.ty other))

/-- What is being checked while a parameter is bound. -/
def parameterOf (name : String) : String := "parameter '" ++ name ++ "'"

/-- Gives every parameter a fresh variable, which has to be equal to every type the parameter is
used at.  The parameters are no longer free in the remaining context. -/
def bindParams (span : Span) : List String → Context → Infer (List Ty × Context)
  | [], context => return ([], context)
  | param :: params, context => do
    let t ← fresh
    (context.uses param).forM fun use => equate span (parameterOf param) t use
    let (ts, context) ← bindParams span params (Table.erase context param)
    return (t :: ts, context)

/-- The typing of a function at `span`, from an instance of its body's typing. -/
def fnTyping (span : Span) (params : List String) (body : Typing) : Infer Typing := do
  let (types, context) ← bindParams span params body.context
  return ⟨.arrow (.product types) body.ty, context, []⟩

/-- The typing of a declaration, from that of its value. -/
def declTyping (name : String) (value : Typing) : Typing := ⟨.unit, [], [(name, value)]⟩

/-- Takes the typing of the next statement into the typing of a block's statements so far.  The
names it declares are added, and its free names are resolved against all names declared so far. -/
def absorb (sofar : Typing) (span : Span) (stmt : Typing) : Infer Typing := do
  let copy ← instantiate stmt
  let defined := Table.insertAll sofar.defined copy.defined
  let context ← resolve sofar.context defined span copy.context
  return ⟨copy.ty, context, defined⟩

/-! ### Nodes -/

/-- A result together with the tree it leaves behind. -/
abbrev Outcome (α τ : Type) := Except Problem α × τ

/-- Keeps a typing that was found at the root of a tree. -/
def Tree.settle (t : Tree Mark) : Except Problem Typing → Outcome Typing (Tree Mark)
  | .ok typing => (.ok typing, t.setLabel { t.label with typing := some typing })
  | .error problem => (.error problem, t)

mutual

/-- The typing of a node, and the tree with the typings found on the way. -/
def infer (t : Tree Mark) : StateM State (Outcome Typing (Tree Mark)) :=
  match t.label.typing with
  | some typing => return (.ok typing, t)
  | none =>
    match t with
    | .int m value => return (Tree.int m value).settle (.ok (.closed .int))
    | .tuple m elems => do
      let (result, elems) ← inferAll elems
      return (Tree.tuple m elems).settle (result.map tupleTyping)
    | .array m elems => return (.error ⟨.arrayLiteral, m.span⟩, .array m elems)
    | .var m name => return (Tree.var m name).settle (.ok (← useTyping name))
    | .apply m fn arg => do
      match ← infer fn with
      | (.error problem, fn) => return (.error problem, .apply m fn arg)
      | (.ok fnRaw, fn) =>
        let fnCopy ← instantiate fnRaw
        match ← infer arg with
        | (.error problem, arg) => return (.error problem, .apply m fn arg)
        | (.ok argRaw, arg) =>
          let argCopy ← instantiate argRaw
          let typing ← applyTypings m.span fnRaw fnCopy argRaw argCopy
          return (Tree.apply m fn arg).settle (.ok typing)
    | .fn m params body => do
      match ← infer body with
      | (.error problem, body) => return (.error problem, .fn m params body)
      | (.ok raw, body) =>
        let copy ← instantiate raw
        return (Tree.fn m params body).settle (← (fnTyping m.span params copy).run)
    | .decl m name value => do
      let (result, value) ← infer value
      return (Tree.decl m name value).settle (result.map (declTyping name))
    | .assign m name value => return (.error ⟨.assignment name, m.span⟩, .assign m name value)
    | .ret m value => do
      let (result, value) ← infer value
      return (Tree.ret m value).settle result
    | .block m stmts => do
      let (result, stmts) ← inferStatements (.closed .unit) stmts
      return (Tree.block m stmts).settle result
  termination_by structural t

/-- The typings of some nodes, from left to right up to the first problem. -/
def inferAll (ts : List (Tree Mark)) : StateM State (Outcome (List Typing) (List (Tree Mark))) :=
  match ts with
  | [] => return (.ok [], [])
  | t :: ts => do
    match ← infer t with
    | (.error problem, t) => return (.error problem, t :: ts)
    | (.ok typing, t) =>
      let (result, ts) ← inferAll ts
      return (result.map (typing :: ·), t :: ts)
  termination_by structural ts

/-- The typing of a block whose statements so far have the typing `sofar` and whose other statements
are given. -/
def inferStatements (sofar : Typing) (stmts : List (Tree Mark)) :
    StateM State (Outcome Typing (List (Tree Mark))) :=
  match stmts with
  | [] => return (.ok sofar, [])
  | stmt :: stmts => do
    record (.statement stmt.kind stmt.label.span.start)
    match ← infer stmt with
    | (.error problem, stmt) => return (.error problem, stmt :: stmts)
    | (.ok raw, stmt) =>
      match ← (absorb sofar stmt.label.span raw).run with
      | .error problem => return (.error problem, stmt :: stmts)
      | .ok sofar =>
        let (result, stmts) ← inferStatements sofar stmts
        return (result, stmt :: stmts)
  termination_by structural stmts

end

end LetTyping
