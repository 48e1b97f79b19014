import LetTyping.Proofs.MostGeneral

/-!
# Unifying again

Types that are resolved alike, up to tags, are unified without binding a variable.  On the way
chains of bindings may be shortened, which shows neither in the variables that are bound nor in what
types are resolved to.

A successful unification makes its two types such types, and they stay so: unifications that come
later only add equations.  So the same unification finds nothing left to do at any later time.

## Main definitions

* `Idle` — a unification that had nothing to do.
* `Subst.Joins` — a substitution comes from another by a successful unification.

## Main results

* `Run.unifyWithin_of_same` — types that are resolved alike are unified by shortening chains.
* `Subst.joins_solves` — later substitutions have fewer solutions.
* `unify_again` — **unification has nothing to do exactly if its types are resolved alike, and this
  is so whenever they have been unified before.**
-/

namespace LetTyping

open Relation

/-! ### Types that are resolved alike -/

namespace Run

variable {depth : Nat} {r : Run}

section Level

-- what holds one level below
variable (ih : ∀ (a b : Ty) (r : Run), r.subst.Acyclic → (r.subst.apply a).height < depth →
  (r.subst.apply a).same (r.subst.apply b) →
  (unifyWithin depth a b r).1 = .ok () ∧ Compressed r (unifyWithin depth a b r).2)

include ih

/-- If two types that are resolved alike are unified by shortening chains, then so are types
pairwise. -/
theorem unifyAll_of_same {as bs : List Ty} {r' : Run} (hc : Compressed r r')
    (hheight : ∀ a ∈ as, (r.subst.apply a).height < depth)
    (hsame : List.Forall₂ (fun a b => (r.subst.apply a).same (r.subst.apply b)) as bs) :
    (unifyAll (unifyWithin depth) as bs r').1 = .ok () ∧
      Compressed r (unifyAll (unifyWithin depth) as bs r').2 := by
  induction hsame generalizing r' with
  | nil => exact ⟨rfl, hc⟩
  | @cons a b as bs hab _ ihs =>
    rw [List.forall_mem_cons] at hheight
    rw [← hc.apply_eq a, ← hc.apply_eq b] at hab
    obtain ⟨hok, hc'⟩ := ih a b r' hc.acyclic (by rw [hc.apply_eq]; exact hheight.1) hab
    rw [unifyAll]
    rcases hres : unifyWithin depth a b r' with ⟨_ | _, r₁⟩ <;> rw [hres] at hok hc'
    · cases hok
    · exact ihs (hc.trans hc') hheight.2

/-- If types that are resolved alike are unified by shortening chains one level below, then so are
two terms that stand for themselves. -/
theorem meet_of_same {a b : Ty} {r' : Run} (hc : Compressed r r')
    (ha : ∀ v, a = .var v → r.subst[v.id]? = none)
    (hb : ∀ v, b = .var v → r.subst[v.id]? = none)
    (hheight : (r.subst.apply a).height < depth + 1)
    (hsame : (r.subst.apply a).same (r.subst.apply b)) :
    (meet depth a b r').1 = .ok () ∧ Compressed r (meet depth a b r').2 := by
  rw [Ty.same_iff] at hsame
  cases a with
  | var v =>
    -- an unbound variable resolves to itself, so both sides are this variable
    rw [Subst.apply_var_of_unbound (ha v rfl)] at hsame
    cases b with
    | var w =>
      rw [Subst.apply_var_of_unbound (hb w rfl)] at hsame
      rw [meet, if_pos (Term.var.inj hsame)]
      exact ⟨rfl, hc⟩
    | con n ts =>
      rw [Subst.apply_con, Ty.untagged, Ty.untagged, Term.map_con] at hsame
      cases hsame
  | con m ss =>
    cases b with
    | var w =>
      rw [Subst.apply_var_of_unbound (hb w rfl), Subst.apply_con, Ty.untagged,
        Term.map_con] at hsame
      cases hsame
    | con n ts =>
      rw [Subst.apply_con, Term.height_con] at hheight
      rw [Subst.apply_con, Subst.apply_con, Ty.untagged, Ty.untagged, Term.map_con, Term.map_con,
        Term.con.injEq, List.map_map, List.map_map] at hsame
      -- equal terms have as many arguments, which are resolved alike one by one
      have hlen : ss.length = ts.length := by simpa using congrArg List.length hsame.2
      rw [meet, if_pos ⟨hsame.1, hlen⟩]
      refine unifyAll_of_same ih hc (fun a ha => ?_) ?_
      · have := Term.height_le_heightList (List.mem_map_of_mem (f := r.subst.apply) ha)
        omega
      · rw [← List.forall₂_eq_eq_eq, List.forall₂_map_left_iff, List.forall₂_map_right_iff] at hsame
        exact hsame.2.imp fun a b heq => Ty.same_iff.mpr heq

end Level

/-- **Types that are resolved alike are unified by shortening chains.** -/
theorem unifyWithin_of_same : ∀ (depth : Nat) (a b : Ty) (r : Run), r.subst.Acyclic →
    (r.subst.apply a).height < depth → (r.subst.apply a).same (r.subst.apply b) →
    (unifyWithin depth a b r).1 = .ok () ∧ Compressed r (unifyWithin depth a b r).2 := by
  intro depth
  induction depth with
  | zero => intro a b r _ h; exact absurd h (by omega)
  | succ depth ih =>
    intro a b r hs hheight hsame
    have hc₁ := find_compressed hs a
    have hc := hc₁.trans (find_compressed hc₁.acyclic b)
    obtain ⟨ha, hb⟩ := apply_find hs a b
    rw [unifyWithin_succ]
    refine meet_of_same ih hc (fun v hv => hs.unbound_of_root hv)
      (fun v hv => (hc₁.unbound_iff v.id).mp (hc₁.acyclic.unbound_of_root hv)) ?_ ?_
    · rwa [ha]
    · rwa [ha, hb]

end Run

/-- A unification under `s` that had nothing to do: it succeeds, no variable is bound that was not,
and every type is resolved as before. -/
structure Idle (s : Subst) (result : Except TypeCause Unit × Subst) : Prop where
  ok : result.1 = .ok ()
  unbound_iff : ∀ n : Nat, result.2[n]? = none ↔ s[n]? = none
  apply_eq : ∀ t, result.2.apply t = s.apply t

/-- Where types are resolved alike there is nothing to do. -/
theorem unify_of_same {s : Subst} (hs : s.Acyclic) {a b : Ty}
    (h : (s.apply a).same (s.apply b)) : Idle s (unify s a b) := by
  have hready := ready_parts hs a b
  obtain ⟨hok, hc⟩ := Run.unifyWithin_of_same _ a b ⟨s, []⟩ hs
    (hready.leftWithin.height_lt hs hready.built) h
  rw [unify]
  rcases hres : Run.unifyWithin _ a b ⟨s, []⟩ with ⟨_ | _, r⟩ <;> rw [hres] at hok hc
  · cases hok
  · exact ⟨rfl, hc.unbound_iff, hc.apply_eq⟩

/-! ### Unifications that come later -/

namespace Subst

variable {s s' : Subst}

/-- The substitution `s'` comes from `s` by a successful unification. -/
def Joins (s s' : Subst) : Prop := ∃ a b, unify s a b = (.ok (), s')

/-- **Later substitutions have fewer solutions.** -/
theorem joins_solves (h : ReflTransGen Joins s s') (hs : s.Acyclic) :
    s'.Acyclic ∧ ∀ θ, Solves θ s' → Solves θ s := by
  induction h with
  | refl => exact ⟨hs, fun _ => id⟩
  | tail _ hjoins ih =>
    obtain ⟨a, b, hab⟩ := hjoins
    obtain ⟨hs', hspec⟩ := unify_spec ih.1 a b
    rw [hab] at hs' hspec
    exact ⟨hs', fun θ hθ => ih.2 θ ((hspec θ).mp hθ).1⟩

/-- Types that every solution makes equal are resolved alike. -/
theorem Acyclic.same_of_solves (hs : s.Acyclic) {a b : Ty}
    (h : ∀ θ, Solves θ s → a.eval θ = b.eval θ) : (s.apply a).same (s.apply b) := by
  have heq := h _ (hs.solves_extend .var)
  rw [hs.eval_extend, hs.eval_extend] at heq
  exact Ty.same_iff.mpr heq

/-- Types that have been unified are resolved alike from then on. -/
theorem Acyclic.same_of_unify (hs : s.Acyclic) {a b : Ty} {s₁ : Subst}
    (h : unify s a b = (.ok (), s₁)) (hlater : ReflTransGen Joins s₁ s') :
    s'.Acyclic ∧ (s'.apply a).same (s'.apply b) := by
  obtain ⟨hs₁, hspec⟩ := unify_spec hs a b
  rw [h] at hs₁ hspec
  obtain ⟨hs', hsub⟩ := joins_solves hlater hs₁
  exact ⟨hs', hs'.same_of_solves fun θ hθ => ((hspec θ).mp (hsub θ hθ)).2⟩

end Subst

/-- **Unifying again changes nothing.**  Unification has nothing to do exactly if its two types are
resolved alike, up to tags.  This is so whenever they have been unified before, however many other
unifications have succeeded since. -/
theorem unify_again {s : Subst} (hs : s.Acyclic) (a b : Ty) :
    ((s.apply a).same (s.apply b) ↔ Idle s (unify s a b)) ∧
      ∀ s₁ s₂, unify s a b = (.ok (), s₁) → ReflTransGen Subst.Joins s₁ s₂ →
        Idle s₂ (unify s₂ a b) := by
  refine ⟨⟨unify_of_same hs, fun hidle => ?_⟩, fun s₁ s₂ h hlater => ?_⟩
  · obtain ⟨-, hsame⟩ := hs.same_of_unify (Prod.ext hidle.ok rfl) .refl
    rwa [hidle.apply_eq, hidle.apply_eq] at hsame
  · obtain ⟨hs₂, hsame⟩ := hs.same_of_unify h hlater
    exact unify_of_same hs₂ hsame

/-- A unification under bindings that mention each other, another one that binds what the first had
left unbound, and the first one again, which shortens a chain and does no more. -/
theorem unify_again_longer_chain :
    let s := Subst.ofList [(3, .var ⟨2, none⟩), (2, .product [.var ⟨1, none⟩, .int])]
    let a := Ty.arrow (.var ⟨5, none⟩) (.var ⟨3, none⟩)
    let b := Ty.arrow (.var ⟨4, none⟩) (.product [.var ⟨0, some "VAR"⟩, .int])
    let s₁ := (unify s a b).2
    let s₂ := (unify s₁ (.var ⟨6, none⟩) (.var ⟨4, none⟩)).2
    s.Acyclic ∧ (unify s a b).1 = .ok () ∧ Subst.Joins s₁ s₂ ∧
      s₂[4]? = some (.var ⟨5, none⟩) ∧ (unify s₂ a b).2[4]? = some (.var ⟨6, none⟩) ∧
      Idle s₂ (unify s₂ a b) := by
  intro s a b s₁ s₂
  have hs : s.Acyclic := Subst.acyclic_ofList (by decide)
  have hok : (unify s a b).1 = .ok () := by decide +kernel
  have hjoins : Subst.Joins s₁ s₂ := ⟨_, _, Prod.ext (by decide +kernel) rfl⟩
  have hidle := (unify_again hs a b).2 s₁ s₂ (Prod.ext hok rfl) (.single hjoins)
  exact ⟨hs, hok, hjoins, by decide +kernel, by decide +kernel, hidle⟩

end LetTyping
