import LetTyping.Fault
import LetTyping.Subst
import LetTyping.Ty.Naming

/-!
# Unification

Two types are made equal by binding type variables.  Bindings are followed from the two types down
to the terms they stand for (`Run.find`), and every variable passed on the way is bound to the end
of the way, so that later searches are short.  A variable is never bound to a term that it occurs
in.

Every write is kept on a trail with the value it replaced.  When unification fails, the trail is
undone and the substitution is the one from before.

The recursion goes down one constructor at a time.  A path through the terms that two types stand
for meets no constructor of a binding or of the types twice, so the number of all these constructors
bounds its length.  Should the bound be reached all the same, which takes a variable that reaches
itself through bindings, the types count as different.

## Main definitions

* `Run` — a substitution with the trail of the writes to it.
* `Run.undo` — takes all the writes back.
* `Run.find` — the term that a type stands for, up to its arguments.
* `Run.occurs` — whether a variable occurs in the term that a type stands for.
* `unify` — makes two types equal, or says why that is impossible.

## Main results

* `Run.undo_write` — a write does not change what taking all the writes back leads to.
-/

namespace LetTyping

/-- A substitution with the trail of the writes to it, the last write first.  A write is a variable
and the type it was bound to before. -/
structure Run where
  subst : Subst
  trail : List (Nat × Option Ty)

namespace Run

/-- Binds a variable. -/
def write (r : Run) (id : Nat) (t : Ty) : Run :=
  ⟨r.subst.insert id t, (id, r.subst[id]?) :: r.trail⟩

/-- Gives a variable the binding it had, if any. -/
def restore (s : Subst) (id : Nat) : Option Ty → Subst
  | some t => s.insert id t
  | none => s.erase id

/-- Takes the writes of a trail back, the last one first. -/
def undoTrail (s : Subst) : List (Nat × Option Ty) → Subst
  | [] => s
  | (id, old) :: trail => undoTrail (restore s id old) trail

/-- Takes all the writes back. -/
def undo (r : Run) : Subst := undoTrail r.subst r.trail

/-- Giving a variable the binding it had takes a write back. -/
theorem restore_insert (s : Subst) (id : Nat) (t : Ty) : restore (s.insert id t) id s[id]? = s := by
  refine Std.ExtTreeMap.ext_getElem? fun n => ?_
  by_cases h : id = n
  · subst h
    cases hs : s[id]? with
    | none => simp [restore]
    | some old => simp [restore]
  · cases hs : s[id]? with
    | none => simp [restore, Std.ExtTreeMap.getElem?_erase, Std.ExtTreeMap.getElem?_insert, h]
    | some old => simp [restore, Std.ExtTreeMap.getElem?_insert, h]

@[simp] theorem undo_start (s : Subst) : (Run.mk s []).undo = s := rfl

@[simp] theorem undo_write (r : Run) (id : Nat) (t : Ty) : (r.write id t).undo = r.undo := by
  rw [undo, write, undoTrail, restore_insert, undo]

/-- Follows bindings from a type as long as it is a bound variable.  Gives the variables passed and
the type at the end. -/
def chase (s : Subst) : Nat → Ty → List Nat × Ty
  | bound + 1, .var v =>
    match s[v.id]? with
    | some t =>
      let (path, last) := chase s bound t
      (v.id :: path, last)
    | none => ([], .var v)
  | _, t => ([], t)

/-- The term that a type stands for: an unbound variable or a constructor.  All the variables on the
way to it except the last, which is bound to it already, are bound to it. -/
def find (r : Run) (t : Ty) : Ty × Run :=
  let (path, last) := chase r.subst r.subst.size t
  (last, path.dropLast.foldl (fun r id => r.write id last) r)

/-- Whether a test that may write succeeds for one of some types.  The types after the first success
are not tested. -/
def anyOf (test : Ty → Run → Bool × Run) : List Ty → Run → Bool × Run
  | [], r => (false, r)
  | t :: ts, r =>
    match test t r with
    | (true, r) => (true, r)
    | (false, r) => anyOf test ts r

/-- Whether a variable occurs in the term that a type stands for. -/
def occurs (id : Nat) : Nat → Ty → Run → Bool × Run
  | 0, _, r => (true, r)
  | depth + 1, t, r =>
    match r.find t with
    | (.var v, r) => (v.id = id, r)
    | (.con _ args, r) => anyOf (occurs id depth) args r

end Run

/-- Why two types cannot be made equal. -/
inductive Clash where
  /-- Two constructors differ in name or in the number of arguments. -/
  | mismatch
  /-- A variable occurs in the term that it would have to be bound to. -/
  | infinite (v : TVar) (t : Ty)

namespace Run

/-- Binds a variable to a term that it does not occur in. -/
def bindVar (depth : Nat) (v : TVar) (t : Ty) (r : Run) : Except Clash Unit × Run :=
  match r.occurs v.id depth t with
  | (true, r) => (.error (.infinite v (r.subst.apply t)), r)
  | (false, r) => (.ok (), r.write v.id t)

/-- Unifies types pairwise, from left to right, up to the first clash. -/
def unifyAll (unify : Ty → Ty → Run → Except Clash Unit × Run) :
    List Ty → List Ty → Run → Except Clash Unit × Run
  | a :: as, b :: bs, r =>
    match unify a b r with
    | (.ok (), r) => unifyAll unify as bs r
    | (.error clash, r) => (.error clash, r)
  | _, _, r => (.ok (), r)

/-- Unifies two types, down to a given depth.  Of two variables the second is bound to the first. -/
def unifyWithin : Nat → Ty → Ty → Run → Except Clash Unit × Run
  | 0, _, _, r => (.error .mismatch, r)
  | depth + 1, a, b, r =>
    let (a, r) := r.find a
    let (b, r) := r.find b
    match a, b with
    | .var v, .var w => if v.id = w.id then (.ok (), r) else r.bindVar (depth + 1) w (.var v)
    | .var v, .con n ts => r.bindVar (depth + 1) v (.con n ts)
    | .con n ts, .var w => r.bindVar (depth + 1) w (.con n ts)
    | .con m ss, .con n ts =>
      if m = n ∧ ss.length = ts.length then unifyAll (unifyWithin depth) ss ts r
      else (.error .mismatch, r)

end Run

/-- The cause of a clash between two types under a substitution.  A mismatch shows the two types
as wholes. -/
def Clash.cause (s : Subst) (a b : Ty) : Clash → TypeCause
  | mismatch =>
    let (expected, found) := Ty.texts (s.apply a) (s.apply b)
    .mismatch expected found none
  | infinite v t =>
    let (var, ty) := Ty.texts (.var v) t
    .infinite var ty none

/-- Makes two types equal by binding variables.  If that is impossible, the substitution stays as it
is. -/
def unify (s : Subst) (a b : Ty) : Except TypeCause Unit × Subst :=
  let depth := s.constructors + a.constructors + b.constructors + 1
  match Run.unifyWithin depth a b ⟨s, []⟩ with
  | (.ok (), r) => (.ok (), r.subst)
  | (.error clash, r) => (.error (clash.cause r.undo a b), r.undo)

end LetTyping
