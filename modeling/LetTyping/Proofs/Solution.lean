import LetTyping.Proofs.Acyclic

/-!
# Solutions of substitutions

A substitution is a set of equations between variables and types.  A solution gives every variable a
type without tags such that all the equations hold.  An acyclic substitution has solutions: the
unbound variables may have any types, and these determine the types of the bound ones.

## Main definitions

* `Solves` — an assignment of types to variables satisfies every binding.
* `Subst.extend` — the solution with given types for the unbound variables.

## Main results

* `Solves.eval_apply` — a solution does not tell a type from its resolved form.
* `Subst.Acyclic.solves_extend` — the unbound variables may have any types.
* `Subst.solves_iff_of_apply` — substitutions that resolve alike have the same solutions.
-/

namespace LetTyping

/-- The assignment `θ` satisfies every binding of `s`. -/
def Solves (θ : Nat → Term Nat) (s : Subst) : Prop := ∀ n t, s[n]? = some t → θ n = t.eval θ

variable {s s' : Subst} {θ η : Nat → Term Nat}

/-- A solution does not tell a type from its resolved form. -/
theorem Solves.eval_apply (hθ : Solves θ s) (hs : s.Acyclic) (t : Ty) :
    (s.apply t).eval θ = t.eval θ := by
  induction t using hs.induction with
  | unbound v hv => rw [Subst.apply_var_of_unbound hv]
  | bound v u hv ih => rw [hs.apply_var_of_bound hv, ih, Ty.eval_var, hθ v.id u hv]
  | con name args ih =>
    rw [Subst.apply_con, Ty.eval_con, Ty.eval_con, List.map_map]
    congr 1
    exact List.map_congr_left ih

namespace Subst

/-- The types that `θ` on the unbound variables gives to all variables. -/
def extend (s : Subst) (θ : Nat → Term Nat) (n : Nat) : Term Nat :=
  (s.apply (.var ⟨n, none⟩)).eval θ

theorem extend_of_unbound {n : Nat} (h : s[n]? = none) : s.extend θ n = θ n := by
  rw [extend, apply_var_of_unbound h, Ty.eval_var]

theorem Acyclic.extend_of_bound (hs : s.Acyclic) {n : Nat} {t : Ty} (h : s[n]? = some t) :
    s.extend θ n = (s.apply t).eval θ := by
  rw [extend, hs.apply_var_of_bound h]

/-- Giving types to all variables is giving types to the variables of the resolved type. -/
theorem Acyclic.eval_extend (hs : s.Acyclic) (t : Ty) :
    t.eval (s.extend θ) = (s.apply t).eval θ := by
  induction t using Term.induction with
  | var v =>
    rw [Ty.eval_var]
    cases hv : s[v.id]? with
    | none => rw [extend_of_unbound hv, apply_var_of_unbound hv, Ty.eval_var]
    | some u => rw [hs.extend_of_bound hv, hs.apply_var_of_bound hv]
  | con name args ih =>
    rw [apply_con, Ty.eval_con, Ty.eval_con, List.map_map]
    congr 1
    exact List.map_congr_left ih

/-- **An acyclic substitution has solutions**, whatever types the unbound variables have. -/
theorem Acyclic.solves_extend (hs : s.Acyclic) (θ : Nat → Term Nat) : Solves (s.extend θ) s := by
  intro n t h
  rw [hs.extend_of_bound h, hs.eval_extend]

/-- A solution is determined by the types of the unbound variables. -/
theorem Acyclic.extend_eq (hs : s.Acyclic) (hθ : Solves θ s) (n : Nat) : s.extend θ n = θ n := by
  rw [extend, hθ.eval_apply hs, Ty.eval_var]

/-- Substitutions that resolve alike have the same solutions. -/
theorem solves_iff_of_apply (hs : s.Acyclic) (hs' : s'.Acyclic)
    (h : ∀ t, s'.apply t = s.apply t) : Solves θ s' ↔ Solves θ s := by
  have key : ∀ {s s' : Subst}, s.Acyclic → s'.Acyclic → (∀ t, s'.apply t = s.apply t) →
      Solves θ s' → Solves θ s := by
    intro s s' hs hs' h hθ n t hn
    rw [← hθ.eval_apply hs' t, h, ← hs.apply_var_of_bound (v := ⟨n, none⟩) hn, ← h,
      hθ.eval_apply hs', Ty.eval_var]
  exact ⟨key hs hs' h, key hs' hs fun t => (h t).symm⟩

/-- A binding for an unbound variable is one more equation. -/
theorem solves_insert {n : Nat} {t : Ty} (hn : s[n]? = none) :
    Solves θ (s.insert n t) ↔ Solves θ s ∧ θ n = t.eval θ := by
  constructor
  · intro h
    refine ⟨fun m u hm => h m u ?_, h n t (by simp)⟩
    rw [Std.ExtTreeMap.getElem?_insert]
    split
    · next heq =>
      rw [Nat.compare_eq_eq] at heq
      rw [← heq, hn] at hm
      exact absurd hm (by simp)
    · exact hm
  · rintro ⟨h, hnt⟩ m u hm
    rw [Std.ExtTreeMap.getElem?_insert] at hm
    split at hm
    · next heq =>
      rw [Nat.compare_eq_eq] at heq
      rw [Option.some.injEq] at hm
      rw [← heq, ← hm]
      exact hnt
    · exact h m u hm

end Subst

end LetTyping
