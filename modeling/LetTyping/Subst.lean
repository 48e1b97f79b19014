import LetTyping.Ty
import Std.Data.ExtTreeMap

/-!
# Substitutions

A substitution binds finitely many type variables, by their numbers.  A binding may mention
variables that are bound in turn, so that no binding has to change when a variable it mentions is
bound later; applying a substitution follows bindings until only unbound variables are left.

When no variable reaches itself through bindings, no binding is met twice on the way down, and
bindings are followed one inside another at most as often as there are bindings.  A variable that
reaches itself is followed without an end.  So `Subst.follow?`, which has no bound, may have no
result; `Subst.apply` counts the bindings on the way down, and what is still bound when the count is
used up is left to `Subst.follow?`.

## Main definitions

* `Subst` — substitutions.
* `Subst.Below` — what is followed next from a type.
* `Subst.followOnce`, `Subst.follow?` — follow bindings once and without a bound.
* `Subst.applyWithin` — follows bindings down to a given depth, and without a bound from there.
* `Subst.apply` — applies a substitution to a type.
* `Subst.constructors` — the number of constructors in all the bindings together.
-/

namespace LetTyping

/-- Finitely many bindings of type variables. -/
abbrev Subst := Std.ExtTreeMap Nat Ty

namespace Subst

/-- What is followed next from a type: the binding of a variable and the arguments of a
constructor. -/
inductive Below (s : Subst) : Ty → Ty → Prop
  | binding {v : TVar} {t : Ty} : s[v.id]? = some t → Below s t (.var v)
  | argument {name : String} {ts : List Ty} {t : Ty} : t ∈ ts → Below s t (.con name ts)

theorem acc_var_of_unbound {s : Subst} {v : TVar} (hv : s[v.id]? = none) :
    Acc s.Below (.var v) := by
  refine ⟨_, fun t ht => ?_⟩
  cases ht with
  | binding ht => simp [hv] at ht

theorem acc_var_of_bound {s : Subst} {v : TVar} {t : Ty} (hv : s[v.id]? = some t)
    (h : Acc s.Below t) : Acc s.Below (.var v) := by
  refine ⟨_, fun u hu => ?_⟩
  cases hu with
  | binding hu => exact Option.some.inj (hv.symm.trans hu) ▸ h

theorem acc_con {s : Subst} {name : String} {args : List Ty} (h : ∀ a ∈ args, Acc s.Below a) :
    Acc s.Below (.con name args) := by
  refine ⟨_, fun t ht => ?_⟩
  cases ht with
  | argument ht => exact h t ht

/-- What may be found by following bindings from a type: a result only where they end. -/
def Followed (s : Subst) (t : Ty) : Type := { found : Option Ty // found.isSome → Acc s.Below t }

instance (s : Subst) (t : Ty) : Nonempty (s.Followed t) := ⟨⟨none, nofun⟩⟩

theorem isSome_of_isSome_mapM {α β : Type} {f : α → Option β} {l : List α}
    (h : (l.mapM f).isSome) : ∀ a ∈ l, (f a).isSome := by
  induction l with
  | nil => nofun
  | cons a l ih =>
    rw [List.mapM_cons] at h
    cases ha : f a with
    | none => simp [ha] at h
    | some b =>
      cases hl : l.mapM f with
      | none => simp [ha, hl] at h
      | some bs =>
        intro x hx
        rcases List.mem_cons.mp hx with rfl | hx
        · rw [ha]
          rfl
        · exact ih (by rw [hl]; rfl) x hx

/-- One round of following bindings, given what is found further on. -/
@[inline] def followOnce (s : Subst) :
    (t : Ty) → (∀ t', s.Below t' t → s.Followed t') → s.Followed t
  | .var v, further =>
    match hv : s[v.id]? with
    | some bound =>
      let found := further bound (.binding hv)
      ⟨found.val, fun h => acc_var_of_bound hv (found.property h)⟩
    | none => ⟨some (.var v), fun _ => acc_var_of_unbound hv⟩
  | .con name args, further =>
    let found := args.attach.mapM fun a => (further a.val (.argument a.property)).val
    ⟨found.map (.con name), fun h => acc_con fun a ha =>
      have hfound : found.isSome := by simpa using h
      (further a (.argument ha)).property
        (isSome_of_isSome_mapM hfound ⟨a, ha⟩ (List.mem_attach args ⟨a, ha⟩))⟩

/-- Replaces bound variables until only unbound ones are left.  Where a variable reaches itself
through bindings this never comes to an end, and there is no result. -/
def follow? (s : Subst) (t : Ty) : Option Ty :=
  (WellFounded.partialExtrinsicFix s.Below s.followOnce t).val

/-- Replaces bound variables, following at most `depth` bindings one inside another by the count and
all others without one. -/
def applyWithin (s : Subst) : Nat → Ty → Ty
  | 0, t => t.bind fun v =>
    match s[v.id]? with
    | some bound => (s.follow? bound).getD (.var v)
    | none => .var v
  | depth + 1, t => t.bind fun v =>
    match s[v.id]? with
    | some bound => applyWithin s depth bound
    | none => .var v

/-- Replaces bound variables until only unbound ones are left. -/
def apply (s : Subst) (t : Ty) : Ty := s.applyWithin s.size t

@[simp] theorem applyWithin_con (s : Subst) (depth : Nat) (name : String) (args : List Ty) :
    s.applyWithin depth (.con name args) = .con name (args.map (s.applyWithin depth)) := by
  cases depth with
  | zero =>
    rw [applyWithin, Term.bind_con]
    rfl
  | succ depth =>
    rw [applyWithin, Term.bind_con]
    rfl

@[simp] theorem apply_con (s : Subst) (name : String) (args : List Ty) :
    s.apply (.con name args) = .con name (args.map s.apply) :=
  applyWithin_con s s.size name args

/-- An unbound variable stays as it is. -/
theorem apply_var_of_unbound {s : Subst} {v : TVar} (h : s[v.id]? = none) :
    s.apply (.var v) = .var v := by
  rw [apply]
  cases s.size with
  | zero => simp [applyWithin, h]
  | succ depth => simp [applyWithin, h]

/-- The number of constructors in all the bindings together. -/
def constructors (s : Subst) : Nat := s.foldl (fun n _ t => n + t.constructors) 0

/-- The substitution of a list of bindings, where the last one for a variable counts. -/
def ofList (bindings : List (Nat × Ty)) : Subst :=
  bindings.foldl (fun s (id, t) => s.insert id t) ∅

end Subst

end LetTyping
