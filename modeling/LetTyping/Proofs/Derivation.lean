import LetTyping.Proofs.Table
import LetTyping.Proofs.Term
import LetTyping.Proofs.Tree

/-!
# Typing rules

The rules that say which types a node has, how it then uses its free names, and what it declares.
Nothing here computes: where inference unifies types, the rules ask for equal types, and where it
allocates a variable, they allow any type.

A declared name stands for the node of its value.  Every resolved name takes one derivation of that
value, with one type for all the uses of the name, and the names that the derivation uses are
resolved against the same declarations.  Derivations are finite, so a name whose declaration leads
back to itself has no derivation.

## Main definitions

* `Plain` — types whose variables are numbers and nothing else.
* `Derives` — a node has a type, for given uses of its free names, and declares given names.
* `Resolves` — the uses of names, resolved against declarations.
* `Settles` — the same for names that stand for anything with instances.
* `Binds` — the types of parameters, and the uses of the other names.
* `Tree.declared` — the names that a node declares, with their values.

## Main results

* `Resolves.induction` — induction on the resolution of names.
* `resolves_iff_settles` — a declared name stands for the derivations of its value.
* `Derives.declared_eq` — what a node declares depends on nothing but the node.
-/

namespace LetTyping

/-- Types whose variables are numbers and nothing else. -/
abbrev Plain := Term Nat

namespace Plain

/-- The type of integers. -/
def int : Plain := .con "Int" []

/-- The type of declarations and of empty blocks. -/
def unit : Plain := .con "Unit" []

/-- The type of functions. -/
def arrow (param result : Plain) : Plain := .con Ty.arrowName [param, result]

/-- The type of tuples. -/
def product (elems : List Plain) : Plain := .con Ty.productName elems

end Plain

@[simp] theorem Ty.eval_int (θ : Nat → Plain) : Ty.int.eval θ = Plain.int := by
  rw [Ty.int, Ty.eval_con, Plain.int, List.map_nil]

@[simp] theorem Ty.eval_unit (θ : Nat → Plain) : Ty.unit.eval θ = Plain.unit := by
  rw [Ty.unit, Ty.eval_con, Plain.unit, List.map_nil]

@[simp] theorem Ty.eval_arrow (θ : Nat → Plain) (a b : Ty) :
    (Ty.arrow a b).eval θ = Plain.arrow (a.eval θ) (b.eval θ) := by
  rw [Ty.arrow, Ty.eval_con, Plain.arrow, List.map_cons, List.map_cons, List.map_nil]

@[simp] theorem Ty.eval_product (θ : Nat → Plain) (ts : List Ty) :
    (Ty.product ts).eval θ = Plain.product (ts.map (Ty.eval θ)) := by
  rw [Ty.product, Ty.eval_con, Plain.product]

/-- Every parameter in turn has one type, which is the type of all its uses, and is free no
longer. -/
inductive Binds : List String → Uses Plain → List Plain → Uses Plain → Prop
  | nil {c} : Binds [] c [] c
  | cons {param params c u us c'} : (∀ t ∈ Uses.of c param, t = u) →
      Binds params (Table.erase c param) us c' → Binds (param :: params) c (u :: us) c'

section Rules

variable {α : Type}

mutual

/-- `Derives n c t d`: the node `n` has the type `t` if its free names are used as in `c`, and it
declares the names of `d`, each with the node of its value. -/
inductive Derives : Tree α → Uses Plain → Plain → Table (Tree α) → Prop
  | int {l value} : Derives (.int l value) [] .int []
  | var {l name t} : Derives (.var l name) [(name, [t])] t []
  | tuple {l elems cs ts} : DerivesAll elems cs ts →
      Derives (.tuple l elems) (cs.foldl Uses.union []) (.product ts) []
  | apply {l fn arg c c' u t d d'} : Derives fn c (.arrow u t) d → Derives arg c' u d' →
      Derives (.apply l fn arg) (Uses.union c c') t []
  | fn {l params body c t d us c'} : Derives body c t d → Binds params c us c' →
      Derives (.fn l params body) c' (.arrow (.product us) t) []
  | decl {l name value c t d} : Derives value c t d →
      Derives (.decl l name value) [] .unit [(name, value)]
  | ret {l value c t d} : Derives value c t d → Derives (.ret l value) c t d
  | block {l stmts c t d} : DerivesStatements stmts [] .unit [] c t d →
      Derives (.block l stmts) c t d

/-- Some nodes have types, each for its own uses of names. -/
inductive DerivesAll : List (Tree α) → List (Uses Plain) → List Plain → Prop
  | nil : DerivesAll [] [] []
  | cons {n ns c cs t ts d} : Derives n c t d → DerivesAll ns cs ts →
      DerivesAll (n :: ns) (c :: cs) (t :: ts)

/-- Some statements lead from uses, a type and declarations so far to those in the end.  Every
statement overrides the declarations, and the names it uses are resolved against them. -/
inductive DerivesStatements : List (Tree α) → Uses Plain → Plain → Table (Tree α) →
    Uses Plain → Plain → Table (Tree α) → Prop
  | nil {c t d} : DerivesStatements [] c t d c t d
  | cons {stmt stmts c t d c₁ t₁ d₁ c₂ c' t' d'} : Derives stmt c₁ t₁ d₁ →
      Resolves (Table.insertAll d d₁) c₁ c c₂ →
      DerivesStatements stmts c₂ t₁ (Table.insertAll d d₁) c' t' d' →
      DerivesStatements (stmt :: stmts) c t d c' t' d'

/-- `Resolves d c out out'`: the uses in `c`, resolved against the declarations `d`, add the uses of
undeclared names to `out`, which gives `out'`. -/
inductive Resolves : Table (Tree α) → Uses Plain → Uses Plain → Uses Plain → Prop
  | nil {d out} : Resolves d [] out out
  | undeclared {d name ts c out out'} : Table.get? d name = none →
      Resolves d c (Uses.passOut out name ts) out' → Resolves d ((name, ts) :: c) out out'
  | declared {d name value ts c c' t d' out out₁ out'} : Table.get? d name = some value →
      Derives value c' t d' → (∀ u ∈ ts, u = t) → Resolves d c' out out₁ →
      Resolves d c out₁ out' → Resolves d ((name, ts) :: c) out out'

end

/-- Induction on the resolution of names. -/
theorem Resolves.induction {d : Table (Tree α)}
    {motive : ∀ c out out', Resolves d c out out' → Prop} (nil : ∀ out, motive [] out out .nil)
    (undeclared : ∀ name ts c out out' (hget : Table.get? d name = none)
      (hc : Resolves d c (Uses.passOut out name ts) out'), motive c _ out' hc →
      motive ((name, ts) :: c) out out' (.undeclared hget hc))
    (declared : ∀ name value ts c c' t d' out out₁ out' (hget : Table.get? d name = some value)
      (hvalue : Derives value c' t d') (hts : ∀ u ∈ ts, u = t) (hc' : Resolves d c' out out₁)
      (hc : Resolves d c out₁ out'), motive c' out out₁ hc' → motive c out₁ out' hc →
      motive ((name, ts) :: c) out out' (.declared hget hvalue hts hc' hc))
    {c out out' : Uses Plain} (h : Resolves d c out out') : motive c out out' h := by
  refine @Resolves.rec α (fun _ _ _ _ _ => True) (fun _ _ _ _ => True)
    (fun _ _ _ _ _ _ _ _ => True) (fun e c out out' h => ∀ heq : e = d, motive c out out' (heq ▸ h))
    trivial trivial (fun _ _ => trivial) (fun _ _ _ _ => trivial) (fun _ _ _ => trivial)
    (fun _ _ => trivial) (fun _ _ => trivial) (fun _ _ => trivial) trivial (fun _ _ _ _ => trivial)
    trivial (fun _ _ _ _ _ _ => trivial) ?_ ?_ ?_ d c out out' h rfl
  · rintro e out rfl
    exact nil out
  · rintro e name ts c out out' hget hc ih rfl
    exact undeclared name ts c out out' hget hc (ih rfl)
  · rintro e name value ts c c' t d' out out₁ out' hget hv hts hc' hc - ihc' ihc rfl
    exact declared name value ts c c' t d' out out₁ out' hget hv hts hc' hc (ihc' rfl) (ihc rfl)

/-! ### Names that stand for instances -/

/-- How a name may be used: for which uses of its free names, and at which type. -/
abbrev Instances := Uses Plain → Plain → Prop

/-- The uses of names, resolved against declarations as by `Resolves`.  What a name stands for is
left open but for its instances. -/
inductive Settles {V : Type} (ι : V → Instances) (d : Table V) :
    Uses Plain → Uses Plain → Uses Plain → Prop
  | nil {out} : Settles ι d [] out out
  | undeclared {name ts c out out'} : Table.get? d name = none →
      Settles ι d c (Uses.passOut out name ts) out' →
      Settles ι d ((name, ts) :: c) out out'
  | declared {name v ts c c' t out out₁ out'} : Table.get? d name = some v → ι v c' t →
      (∀ u ∈ ts, u = t) → Settles ι d c' out out₁ → Settles ι d c out₁ out' →
      Settles ι d ((name, ts) :: c) out out'

/-- The instances of a value are its derivations. -/
def Tree.instances (n : Tree α) : Instances := fun c t => ∃ d, Derives n c t d

theorem resolves_iff_settles {d : Table (Tree α)} {c out out' : Uses Plain} :
    Resolves d c out out' ↔ Settles Tree.instances d c out out' := by
  constructor
  · intro h
    induction h using Resolves.induction with
    | nil out => exact .nil
    | undeclared _ _ _ _ _ hget _ ih => exact .undeclared hget ih
    -- the two differ only in where the instances of a declaration come from
    | declared _ _ _ _ _ _ d' _ _ _ hget hvalue hts _ _ ih ihrest =>
      exact .declared hget ⟨d', hvalue⟩ hts ih ihrest
  · intro h
    induction h with
    | nil => exact .nil
    | undeclared hget _ ih => exact .undeclared hget ih
    | declared hget hvalue hts _ _ ih ihrest =>
      obtain ⟨d', hvalue⟩ := hvalue
      exact .declared hget hvalue hts ih ihrest

/-! ### Declarations -/

mutual

/-- The names that a node declares, with the nodes of their values. -/
def Tree.declared : Tree α → Table (Tree α)
  | .decl _ name value => [(name, value)]
  | .ret _ value => Tree.declared value
  | .block _ stmts => Tree.declaredFrom [] stmts
  | _ => []
  termination_by structural t => t

/-- The names that are declared after some statements, given those declared before. -/
def Tree.declaredFrom (d : Table (Tree α)) : List (Tree α) → Table (Tree α)
  | [] => d
  | stmt :: stmts => Tree.declaredFrom (Table.insertAll d (Tree.declared stmt)) stmts
  termination_by structural stmts => stmts

end

theorem DerivesStatements.declaredFrom_eq {stmts : List (Tree α)}
    (ih : ∀ s ∈ stmts, ∀ c t d, Derives s c t d → d = s.declared) :
    ∀ {c t d c' t' d'}, DerivesStatements stmts c t d c' t' d' →
      d' = Tree.declaredFrom d stmts := by
  induction stmts with
  | nil =>
    intro c t d c' t' d' h
    cases h
    rfl
  | cons stmt stmts ihs =>
    intro c t d c' t' d' h
    rw [List.forall_mem_cons] at ih
    cases h with
    | cons hstmt _ hrest =>
      rw [ihs ih.2 hrest, ih.1 _ _ _ hstmt]
      rfl

/-- **What a node declares depends on nothing but the node.** -/
theorem Derives.declared_eq {n : Tree α} {c : Uses Plain} {t : Plain} {d : Table (Tree α)}
    (h : Derives n c t d) : d = n.declared := by
  induction n using Tree.induction generalizing c t d with
  | ret l value ih =>
    cases h with
    | ret hvalue => exact ih hvalue
  | block l stmts ih =>
    cases h with
    | block hstmts => exact hstmts.declaredFrom_eq fun s hs c t d h => ih s hs h
  | _ =>
    cases h
    all_goals rfl

end Rules

end LetTyping
