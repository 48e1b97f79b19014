import LetTyping.Subst
import LetTyping.Table

/-!
# Contexts

A context says how the free names of an expression are used: for every name, the types it has at its
occurrences, in the order of the occurrences.

## Main definitions

* `Context` — names with the types they are used at.
* `Context.add` — records one more use of a name.
* `Context.uses` — the types that a name is used at.
* `Context.union` — the uses in two contexts together.
* `Context.mapTypes` — changes every type.
* `Context.same` — equality up to tags and the order of names.
-/

namespace LetTyping

/-- Free names with the types they are used at. -/
abbrev Context := Table (List Ty)

namespace Context

/-- The context of one use of one name. -/
def singleton (name : String) (t : Ty) : Context := [(name, [t])]

/-- Records uses of a name after those that are there. -/
def addAll (c : Context) (name : String) (ts : List Ty) : Context :=
  Table.alter c name fun old => old.getD [] ++ ts

/-- Records one more use of a name. -/
def add (c : Context) (name : String) (t : Ty) : Context := c.addAll name [t]

/-- The types that a name is used at. -/
def uses (c : Context) (name : String) : List Ty := (Table.get? c name).getD []

/-- The uses in `c`, then the uses in `d`. -/
def union (c d : Context) : Context := d.foldl (fun c (name, ts) => Context.addAll c name ts) c

/-- All the types of a context, in order. -/
def types (c : Context) : List Ty := c.flatMap Prod.snd

/-- Changes every type of a context. -/
def mapTypes (f : Ty → Ty) (c : Context) : Context := c.map fun (name, ts) => (name, ts.map f)

/-- Whether two contexts have the same names with the same uses, up to tags and the order of the
names. -/
def same (c d : Context) : Bool :=
  Table.sameUpToOrder (fun ss ts => ss.map Ty.untagged = ts.map Ty.untagged) c d

@[simp] theorem uses_nil (name : String) : uses [] name = [] := rfl

@[simp] theorem uses_addAll (c : Context) (name : String) (ts : List Ty) (n : String) :
    (c.addAll name ts).uses n = if n = name then c.uses name ++ ts else c.uses n := by
  by_cases h : n = name <;> simp [uses, addAll, h]

@[simp] theorem uses_add (c : Context) (name : String) (t : Ty) (n : String) :
    (c.add name t).uses n = if n = name then c.uses name ++ [t] else c.uses n :=
  uses_addAll c name [t] n

@[simp] theorem uses_erase (c : Context) (name n : String) :
    Context.uses (Table.erase c name) n = if n = name then [] else c.uses n := by
  by_cases h : n = name <;> simp [uses, h]

end Context

end LetTyping
