import LetTyping.Context

/-!
# Typings

What inference finds out about a node: its type, how the free names beneath it are used, and the
names it declares.  A declared name keeps the whole typing of the declared value, so that every use
of the name can have an instance of its own.

## Main definitions

* `Typing` — a type, a context and the declared names.
* `Typing.types` — all the types of a typing, in order.
* `Typing.mapTypes` — changes every type.
* `Typing.apply` — applies a substitution.
* `Typing.freeVars` — the variables of a typing, in the order of their first occurrences.
* `Typing.same` — equality up to tags and the order of names.
-/

namespace LetTyping

/-- What inference finds out about a node. -/
structure Typing where
  /-- The type of the node. -/
  ty : Ty
  /-- The uses of the free names beneath the node. -/
  context : Context
  /-- The names that the node declares, with the typings of their values. -/
  defined : List (String × Typing)

/-- Declared names with the typings of their values. -/
abbrev Defined := Table Typing

namespace Typing

/-- The typing of a node that uses and declares no name. -/
def closed (ty : Ty) : Typing := ⟨ty, [], []⟩

/-- Whether nothing beneath the node uses a free name. -/
def isClosed (t : Typing) : Bool := t.context.isEmpty

mutual

/-- All the types of a typing: its own, those of its context, those of the declared typings. -/
def types : Typing → List Ty
  | ⟨ty, context, defined⟩ => ty :: (context.types ++ definedTypes defined)
  termination_by structural t => t

/-- All the types of declared names. -/
def definedTypes : List (String × Typing) → List Ty
  | [] => []
  | (_, t) :: rest => types t ++ definedTypes rest
  termination_by structural d => d

end

@[simp] theorem definedTypes_eq_flatMap (d : List (String × Typing)) :
    definedTypes d = d.flatMap fun entry => entry.2.types := by
  induction d with
  | nil => rfl
  | cons entry rest ih => rw [definedTypes, ih, List.flatMap_cons]

mutual

/-- Changes every type of a typing. -/
def mapTypes (f : Ty → Ty) : Typing → Typing
  | ⟨ty, context, defined⟩ => ⟨f ty, context.mapTypes f, mapDefined f defined⟩
  termination_by structural t => t

/-- Changes every type of declared names. -/
def mapDefined (f : Ty → Ty) : List (String × Typing) → List (String × Typing)
  | [] => []
  | (name, t) :: rest => (name, mapTypes f t) :: mapDefined f rest
  termination_by structural d => d

end

@[simp] theorem mapDefined_eq_map (f : Ty → Ty) (d : List (String × Typing)) :
    mapDefined f d = d.map fun entry => (entry.1, entry.2.mapTypes f) := by
  induction d with
  | nil => rfl
  | cons entry rest ih => rw [mapDefined, ih, List.map_cons]

/-- Applies a substitution to every type. -/
def apply (s : Subst) (t : Typing) : Typing := t.mapTypes s.apply

/-- The variables of a typing, each at its first occurrence. -/
def freeVars (t : Typing) : List TVar := TVar.distinct (t.types.flatMap Term.vars)

mutual

/-- Whether two typings are equal up to tags and the order of names. -/
def same : Typing → Typing → Bool
  | ⟨ty, context, defined⟩, u =>
    ty.same u.ty && context.same u.context && defined.length = u.defined.length &&
      sameDefined defined u.defined
  termination_by structural t => t

/-- Whether every name of the first table is declared alike in the second. -/
def sameDefined : List (String × Typing) → List (String × Typing) → Bool
  | [], _ => true
  | (name, t) :: rest, d =>
    (match Table.get? d name with
      | some u => same t u
      | none => false) && sameDefined rest d
  termination_by structural d => d

end

end Typing

end LetTyping
