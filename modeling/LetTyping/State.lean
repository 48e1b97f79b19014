import LetTyping.Event
import LetTyping.Typing
import LetTyping.Unify

/-!
# The state of inference

Inference allocates type variables by counting, binds them by unification, and reports events.  An
error ends the inference of a node, but what was allocated, bound and reported until then stays.

Variables are counted without a bound.  Where numbers have 32 bits, the counts are the same as long
as fewer than 2 ^ 32 variables are allocated; a count never falls, so this holds of a whole run if
it holds at its end.

## Main definitions

* `State` — the number of allocated variables, the substitution and the events.
* `Infer` — computations that change the state and may end with a problem.
* `fresh`, `freshTagged` — allocate a variable.
* `instantiate` — copies a typing with variables of its own.
* `equate` — makes two types equal, or ends with a problem.
-/

namespace LetTyping

/-- The state of inference. -/
structure State where
  /-- The number of variables allocated so far; the next variable has this number.  It is exact
  below 2 ^ 32 allocations, and from there on larger than any number of 32 bits. -/
  count : Nat := 0
  /-- The bindings made so far. -/
  subst : Subst := ∅
  /-- The events reported so far, the last one first. -/
  log : List Event := []

/-- Computations that change the state and may end with a problem. -/
abbrev Infer := ExceptT Problem (StateM State)

/-- Reports an event. -/
def record (event : Event) : StateM State Unit :=
  modify fun st => { st with log := event :: st.log }

/-- Allocates a variable with the given tag. -/
def freshTagged (tag : Option String) : StateM State Ty :=
  modifyGet fun st => (.var ⟨st.count, tag⟩, { st with count := st.count + 1 })

/-- Allocates a variable. -/
def fresh : StateM State Ty := freshTagged none

/-- The tag of the variables allocated for the uses of names. -/
def useTag : String := "VAR"

/-- The substitution that takes the given variables to those numbered from `first` on, one by one.
Tags are kept. -/
def renumbering (first : Nat) (vs : List TVar) : Subst :=
  Subst.ofList ((vs.zipIdx first).map fun (v, id) => (v.id, .var ⟨id, v.tag⟩))

/-- Copies a typing, with every variable that is unbound in it replaced by a fresh one.  Occurrences
of one variable get the same fresh variable. -/
def instantiate (t : Typing) : StateM State Typing :=
  modifyGet fun st =>
    let resolved := t.apply st.subst
    let free := resolved.freeVars
    (resolved.apply (renumbering st.count free), { st with count := st.count + free.length })

/-- Makes two types equal by binding variables, if possible. -/
def unifyTypes (a b : Ty) : StateM State (Except TypeCause Unit) :=
  modifyGet fun st =>
    let (result, subst) := unify st.subst a b
    (result, { st with subst })

/-- Makes two types equal by binding variables.  If that is impossible, ends with a problem at
`span` that says what was being checked. -/
def equate (span : Span) (description : String) (a b : Ty) : Infer Unit := do
  match ← unifyTypes a b with
  | .ok () => return
  | .error cause => throw ⟨cause.whileChecking description, span⟩

end LetTyping
