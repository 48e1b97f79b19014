/-!
# Syntax trees

A program is a tree whose nodes carry labels: the parser labels a node with the span of source text
it was read from, and type inference works on labels that also have room for a typing.

## Main definitions

* `Tree` — expressions, statements and blocks, with a label at every node.
* `Tree.label`, `Tree.setLabel` — the label of the root.
* `Tree.map` — changes every label and nothing else.
* `Tree.children`, `Tree.subtrees` — the nodes below a node, directly or at any depth.
* `Tree.get?`, `Tree.set` — the node at the end of a path.
-/

namespace LetTyping

/-- Syntax trees with labels from `α` at their nodes. -/
inductive Tree (α : Type) where
  /-- An integer literal. -/
  | int (label : α) (value : Int)
  /-- A tuple. -/
  | tuple (label : α) (elems : List (Tree α))
  /-- An array literal. -/
  | array (label : α) (elems : List (Tree α))
  /-- A name that is used. -/
  | var (label : α) (name : String)
  /-- A function applied to its argument. -/
  | apply (label : α) (fn arg : Tree α)
  /-- A function with its parameters. -/
  | fn (label : α) (params : List String) (body : Tree α)
  /-- A declaration. -/
  | decl (label : α) (name : String) (value : Tree α)
  /-- An assignment. -/
  | assign (label : α) (name : String) (value : Tree α)
  /-- A returned value. -/
  | ret (label : α) (value : Tree α)
  /-- Statements in sequence. -/
  | block (label : α) (stmts : List (Tree α))

namespace Tree

variable {α β : Type}

/-- The label of the root. -/
def label : Tree α → α
  | int l _ | tuple l _ | array l _ | var l _ | apply l _ _ | fn l _ _ | decl l _ _ | assign l _ _
  | ret l _ | block l _ => l

/-- The tree with another label at its root. -/
def setLabel (l : α) : Tree α → Tree α
  | int _ v => int l v
  | tuple _ es => tuple l es
  | array _ es => array l es
  | var _ x => var l x
  | apply _ f a => apply l f a
  | fn _ ps b => fn l ps b
  | decl _ x v => decl l x v
  | assign _ x v => assign l x v
  | ret _ v => ret l v
  | block _ ss => block l ss

@[simp] theorem label_setLabel (l : α) (t : Tree α) : (t.setLabel l).label = l := by
  cases t <;> rfl

/-- The word for the kind of the root. -/
def kind : Tree α → String
  | int _ _ => "int"
  | tuple _ _ => "tuple"
  | array _ _ => "array"
  | var _ _ => "var"
  | apply _ _ _ => "apply"
  | fn _ _ _ => "fn"
  | decl _ _ _ => "decl"
  | assign _ _ _ => "assign"
  | ret _ _ => "return"
  | block _ _ => "block"

/-- The nodes directly below the root, in source order. -/
def children : Tree α → List (Tree α)
  | int _ _ | var _ _ => []
  | tuple _ es | array _ es | block _ es => es
  | apply _ f a => [f, a]
  | fn _ _ t | decl _ _ t | assign _ _ t | ret _ t => [t]

mutual

/-- Changes every label. -/
def map (f : α → β) : Tree α → Tree β
  | int l v => int (f l) v
  | tuple l es => tuple (f l) (mapList f es)
  | array l es => array (f l) (mapList f es)
  | var l x => var (f l) x
  | apply l g a => apply (f l) (map f g) (map f a)
  | fn l ps b => fn (f l) ps (map f b)
  | decl l x v => decl (f l) x (map f v)
  | assign l x v => assign (f l) x (map f v)
  | ret l v => ret (f l) (map f v)
  | block l ss => block (f l) (mapList f ss)

/-- Changes every label of some trees. -/
def mapList (f : α → β) : List (Tree α) → List (Tree β)
  | [] => []
  | t :: ts => map f t :: mapList f ts

end

@[simp] theorem mapList_eq_map (f : α → β) (ts : List (Tree α)) :
    mapList f ts = ts.map (map f) := by
  induction ts with
  | nil => rfl
  | cons t ts ih => rw [mapList, ih, List.map_cons]

mutual

/-- The tree and everything below it, parents first. -/
def subtrees : Tree α → List (Tree α)
  | int l v => [int l v]
  | tuple l es => tuple l es :: subtreesList es
  | array l es => array l es :: subtreesList es
  | var l x => [var l x]
  | apply l f a => apply l f a :: (subtrees f ++ subtrees a)
  | fn l ps b => fn l ps b :: subtrees b
  | decl l x v => decl l x v :: subtrees v
  | assign l x v => assign l x v :: subtrees v
  | ret l v => ret l v :: subtrees v
  | block l ss => block l ss :: subtreesList ss

/-- Some trees and everything below them. -/
def subtreesList : List (Tree α) → List (Tree α)
  | [] => []
  | t :: ts => subtrees t ++ subtreesList ts

end

@[simp] theorem subtreesList_eq_flatMap (ts : List (Tree α)) :
    subtreesList ts = ts.flatMap subtrees := by
  induction ts with
  | nil => rfl
  | cons t ts ih => rw [subtreesList, ih, List.flatMap_cons]

/-- The subtrees of a tree are the tree and the subtrees of its children. -/
theorem subtrees_eq (t : Tree α) : t.subtrees = t :: t.children.flatMap subtrees := by
  cases t <;> simp [subtrees, children]

/-! ### Paths

A path is a list of child indices, read from the root. -/

/-- The tree with child `i` replaced. -/
def setChild (t : Tree α) (i : Nat) (child : Tree α) : Tree α :=
  match t, i with
  | tuple l es, i => tuple l (es.set i child)
  | array l es, i => array l (es.set i child)
  | block l es, i => block l (es.set i child)
  | apply l _ a, 0 => apply l child a
  | apply l f _, 1 => apply l f child
  | fn l ps _, 0 => fn l ps child
  | decl l x _, 0 => decl l x child
  | assign l x _, 0 => assign l x child
  | ret l _, 0 => ret l child
  | t, _ => t

/-- The node at the end of a path. -/
def get? (t : Tree α) : List Nat → Option (Tree α)
  | [] => some t
  | i :: path => t.children[i]?.bind (get? · path)

/-- The tree with the node at the end of a path replaced; a path that leads nowhere replaces
nothing. -/
def set (t : Tree α) (new : Tree α) : List Nat → Tree α
  | [] => new
  | i :: path =>
    match t.children[i]? with
    | some child => t.setChild i (set child new path)
    | none => t

end Tree

end LetTyping
