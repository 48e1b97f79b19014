import LetTyping.Proofs.Term
import LetTyping.Subst
import Mathlib.Data.Finset.Card
import Mathlib.Logic.Relation

/-!
# Acyclic substitutions

A substitution is acyclic if no variable reaches itself through bindings.  Then every variable has a
rank, the number of bound variables that can be reached from it, and bindings lead from higher to
lower ranks.  So applying the substitution follows every binding to its end, and properties of
resolved types can be proved by induction along the bindings.

## Main definitions

* `Subst.Step` — a variable occurs in what another one is bound to.
* `Subst.Acyclic` — no variable reaches itself.
* `Subst.LeadsTo` — following the bindings from a type comes to an end.

## Main results

* `Subst.Acyclic.exists_rank` — bindings lead from higher to lower ranks.
* `Subst.Acyclic.induction` — induction along bindings and arguments.
* `Subst.Acyclic.apply_var_of_bound` — a bound variable is resolved like its binding.
* `Subst.Acyclic.mem_ids_apply` — what occurs in a resolved type.
* `Subst.follow?_eq_some_iff` — what is found by following the bindings is where they lead, whether
  or not they are acyclic.
* `Subst.Acyclic.leadsTo_iff` — bindings lead to the resolved type, and nowhere else.
-/

namespace LetTyping

namespace Subst

open Relation

/-- The variable `w` occurs in the type that `v` is bound to. -/
def Step (s : Subst) (v w : Nat) : Prop := ∃ t, s[v]? = some t ∧ w ∈ t.ids

/-- No variable reaches itself through bindings. -/
def Acyclic (s : Subst) : Prop := ∀ v, ¬TransGen s.Step v v

variable {s s' : Subst}

/-! ### Ranks -/

/-- A substitution is acyclic if all its bindings lead from higher to lower ranks. -/
theorem acyclic_of_rank (rank : Nat → Nat) (h : ∀ v w, s.Step v w → rank w < rank v) :
    s.Acyclic := by
  have hlt : ∀ v w, TransGen s.Step v w → rank w < rank v := by
    intro v w hvw
    induction hvw with
    | single hs => exact h _ _ hs
    | tail _ hs ih => exact lt_trans (h _ _ hs) ih
  intro v hv
  exact lt_irrefl _ (hlt v v hv)

/-- Bindings that lead to variables with smaller numbers are acyclic. -/
theorem acyclic_ofList {bindings : List (Nat × Ty)} (h : ∀ e ∈ bindings, ∀ w ∈ e.2.ids, w < e.1) :
    (ofList bindings).Acyclic := by
  -- the list is folded into a substitution that is not empty any more, so this is for any one
  have key : ∀ (bindings : List (Nat × Ty)) (s : Subst),
      (∀ e ∈ bindings, ∀ w ∈ e.2.ids, w < e.1) → (∀ v w, s.Step v w → w < v) →
      ∀ v w, Step (bindings.foldl (fun s e => s.insert e.1 e.2) s) v w → w < v := by
    intro bindings
    induction bindings with
    | nil => intro s _ hs; exact hs
    | cons e bindings ih =>
      intro s hall hs
      rw [List.forall_mem_cons] at hall
      refine ih _ hall.2 ?_
      rintro v w ⟨t, ht, hw⟩
      rw [Std.ExtTreeMap.getElem?_insert] at ht
      split at ht
      -- the new binding leads to smaller numbers by assumption
      · next heq =>
        rw [Nat.compare_eq_eq] at heq
        rw [← Option.some.inj ht] at hw
        exact heq ▸ hall.1 w hw
      · exact hs v w ⟨t, ht, hw⟩
  exact acyclic_of_rank (fun n => n) (key bindings ∅ h fun v w ⟨t, ht, _⟩ => by simp at ht)

/-- **Every variable has a rank.**  Bindings lead from higher to lower ranks, no rank exceeds the
number of bindings, and only unbound variables may have rank zero. -/
theorem Acyclic.exists_rank (hs : s.Acyclic) :
    ∃ rank : Nat → Nat, (∀ v w, s.Step v w → rank w < rank v) ∧ (∀ v, rank v ≤ s.size) ∧
      ∀ v t, s[v]? = some t → 0 < rank v := by
  classical
  -- the rank counts the bound variables that can be reached
  let reach : Nat → Finset Nat := fun v => s.keys.toFinset.filter (ReflTransGen s.Step v)
  have hbound : ∀ {v t}, s[v]? = some t → v ∈ s.keys.toFinset := by
    intro v t hv
    rw [List.mem_toFinset, Std.ExtTreeMap.mem_keys, Std.ExtTreeMap.mem_iff_isSome_getElem?, hv]
    rfl
  have hself : ∀ {v t}, s[v]? = some t → v ∈ reach v := fun hv =>
    Finset.mem_filter.mpr ⟨hbound hv, .refl⟩
  refine ⟨fun v => (reach v).card, ?_, ?_, ?_⟩
  · intro v w hvw
    obtain ⟨t, ht, -⟩ := id hvw
    refine Finset.card_lt_card ((Finset.ssubset_iff_of_subset ?_).mpr ⟨v, hself ht, ?_⟩)
    · intro x hx
      rw [Finset.mem_filter] at hx ⊢
      exact ⟨hx.1, .head hvw hx.2⟩
    · intro hv
      exact hs v (.head' hvw (Finset.mem_filter.mp hv).2)
  · intro v
    refine le_trans (Finset.card_filter_le _ _) (le_trans (List.toFinset_card_le _) ?_)
    rw [Std.ExtTreeMap.length_keys]
  · intro v t hv
    exact Finset.card_pos.mpr ⟨v, hself hv⟩

/-- **Induction along bindings and arguments.**  A property of types holds of all types if it holds
of unbound variables, passes from a binding to the variable, and from arguments to the whole. -/
theorem Acyclic.induction (hs : s.Acyclic) {motive : Ty → Prop}
    (unbound : ∀ v, s[v.id]? = none → motive (.var v))
    (bound : ∀ v t, s[v.id]? = some t → motive t → motive (.var v))
    (con : ∀ name args, (∀ a ∈ args, motive a) → motive (.con name args)) (t : Ty) : motive t := by
  obtain ⟨rank, hrank, hsize, -⟩ := hs.exists_rank
  -- outer induction on the rank, which falls along bindings; inner induction on the type, whose
  -- arguments have variables of no higher rank
  have key : ∀ n (t : Ty), (∀ w ∈ t.ids, rank w < n) → motive t := by
    intro n
    induction n with
    | zero =>
      intro t ht
      induction t using Term.induction with
      | var v => exact absurd (ht v.id (by simp)) (by omega)
      | con name args ih =>
        refine con name args fun a ha => ih a ha fun w hw => ht w ?_
        rw [Ty.ids_con, List.mem_flatMap]
        exact ⟨a, ha, hw⟩
    | succ n ihn =>
      intro t ht
      induction t using Term.induction with
      | var v =>
        cases hv : s[v.id]? with
        | none => exact unbound v hv
        | some u =>
          -- the type that the variable is bound to has variables of lower rank only
          refine bound v u hv (ihn u fun w hw => ?_)
          have h1 := hrank v.id w ⟨u, hv, hw⟩
          have h2 := ht v.id (by simp)
          omega
      | con name args ih =>
        refine con name args fun a ha => ih a ha fun w hw => ht w ?_
        rw [Ty.ids_con, List.mem_flatMap]
        exact ⟨a, ha, hw⟩
  exact key (s.size + 1) t fun w _ => Nat.lt_succ_of_le (hsize w)

/-! ### Resolving types -/

/-- Following bindings further changes nothing, once every rank is covered. -/
theorem applyWithin_succ {rank : Nat → Nat} (hrank : ∀ v w, s.Step v w → rank w < rank v)
    (hpos : ∀ v t, s[v]? = some t → 0 < rank v) (depth : Nat) (t : Ty)
    (ht : ∀ w ∈ t.ids, rank w ≤ depth) : s.applyWithin (depth + 1) t = s.applyWithin depth t := by
  induction depth generalizing t with
  | zero =>
    rw [applyWithin, applyWithin]
    refine Term.bind_congr fun v hv => ?_
    -- bound variables have a positive rank, so none of the type's variables is bound
    have h0 := ht v.id (Ty.mem_ids hv)
    cases hb : s[v.id]? with
    | none => rfl
    | some u => exact absurd (hpos v.id u hb) (by omega)
  | succ depth ih =>
    rw [applyWithin, applyWithin]
    refine Term.bind_congr fun v hv => ?_
    cases hb : s[v.id]? with
    | none => rfl
    | some u =>
      -- one step along a binding lowers the rank, as it does the depth that is left
      refine ih u fun w hw => ?_
      have h1 := hrank v.id w ⟨u, hb, hw⟩
      have h2 := ht v.id (Ty.mem_ids hv)
      omega

/-- **A bound variable is resolved like its binding.** -/
theorem Acyclic.apply_var_of_bound (hs : s.Acyclic) {v : TVar} {t : Ty} (h : s[v.id]? = some t) :
    s.apply (.var v) = s.apply t := by
  obtain ⟨rank, hrank, hsize, hpos⟩ := hs.exists_rank
  have hv := hsize v.id
  rw [apply, apply]
  cases hd : s.size with
  | zero =>
    have := hpos v.id t h
    omega
  | succ depth =>
    rw [applyWithin, Term.bind_var, h]
    refine (applyWithin_succ hrank hpos depth t fun w hw => ?_).symm
    have := hrank v.id w ⟨t, h, hw⟩
    omega

/-- Types are resolved variable by variable. -/
theorem apply_eq_bind (s : Subst) (t : Ty) : s.apply t = t.bind fun v => s.apply (.var v) := by
  induction t using Term.induction with
  | var v => rfl
  | con name args ih =>
    rw [apply_con, Term.bind_con, List.map_congr_left ih]

/-- No bound variable occurs in a resolved type. -/
theorem Acyclic.unbound_of_mem_ids_apply (hs : s.Acyclic) {t : Ty} {w : Nat}
    (h : w ∈ (s.apply t).ids) : s[w]? = none := by
  induction t using hs.induction with
  | unbound v hv =>
    rw [apply_var_of_unbound hv, Ty.ids_var, List.mem_singleton] at h
    rw [h, hv]
  | bound v u hv ih =>
    rw [hs.apply_var_of_bound hv] at h
    exact ih h
  | con name args ih =>
    rw [apply_con, Ty.ids_con, List.mem_flatMap] at h
    obtain ⟨_, hb, hw⟩ := h
    obtain ⟨a, ha, rfl⟩ := List.mem_map.mp hb
    exact ih a ha hw

/-- **What occurs in a resolved type** are the unbound variables that the type reaches. -/
theorem Acyclic.mem_ids_apply (hs : s.Acyclic) {t : Ty} {w : Nat} :
    w ∈ (s.apply t).ids ↔ s[w]? = none ∧ ∃ v ∈ t.ids, ReflTransGen s.Step v w := by
  refine ⟨fun h => ⟨hs.unbound_of_mem_ids_apply h, ?_⟩, ?_⟩
  -- from the resolved type back along its bindings
  · induction t using hs.induction with
    | unbound v hv =>
      rw [apply_var_of_unbound hv, Ty.ids_var, List.mem_singleton] at h
      exact ⟨v.id, by simp, h ▸ .refl⟩
    | bound v u hv ih =>
      rw [hs.apply_var_of_bound hv] at h
      obtain ⟨x, hx, hxw⟩ := ih h
      exact ⟨v.id, by simp, .head ⟨u, hv, hx⟩ hxw⟩
    | con name args ih =>
      rw [apply_con, Ty.ids_con, List.mem_flatMap] at h
      obtain ⟨_, hb, hw⟩ := h
      obtain ⟨a, ha, rfl⟩ := List.mem_map.mp hb
      obtain ⟨x, hx, hxw⟩ := ih a ha hw
      refine ⟨x, ?_, hxw⟩
      rw [Ty.ids_con, List.mem_flatMap]
      exact ⟨a, ha, hx⟩
  · rintro ⟨hw, x, hx, hxw⟩
    -- along the steps; nothing leads on from an unbound variable, and the first step from a bound
    -- one is to a variable of its type
    induction t using hs.induction generalizing x with
    | unbound v hv =>
      rw [Ty.ids_var, List.mem_singleton] at hx
      subst hx
      rcases ReflTransGen.cases_head hxw with rfl | ⟨y, ⟨u, hu, -⟩, -⟩
      · rw [apply_var_of_unbound hv]
        simp
      · rw [hu] at hv
        exact absurd hv (by simp)
    | bound v u hv ih =>
      rw [Ty.ids_var, List.mem_singleton] at hx
      subst hx
      rw [hs.apply_var_of_bound hv]
      rcases ReflTransGen.cases_head hxw with rfl | ⟨y, ⟨u', hu, hy⟩, hyw⟩
      · rw [hw] at hv
        exact absurd hv (by simp)
      · rw [hv, Option.some.injEq] at hu
        subst hu
        exact ih y hy hyw
    | con name args ih =>
      rw [Ty.ids_con, List.mem_flatMap] at hx
      obtain ⟨a, ha, hx⟩ := hx
      rw [apply_con, Ty.ids_con, List.mem_flatMap]
      exact ⟨s.apply a, List.mem_map_of_mem ha, ih a ha x hx hxw⟩

/-- A type without bound variables stays as it is. -/
theorem apply_eq_self {t : Ty} (h : ∀ w ∈ t.ids, s[w]? = none) : s.apply t = t := by
  rw [apply_eq_bind]
  conv => rhs; rw [← Term.bind_var_self t]
  exact Term.bind_congr fun v hv => apply_var_of_unbound (h v.id (Ty.mem_ids hv))

/-- Resolving a resolved type changes nothing. -/
theorem Acyclic.apply_apply (hs : s.Acyclic) (t : Ty) : s.apply (s.apply t) = s.apply t :=
  apply_eq_self fun _ hw => hs.unbound_of_mem_ids_apply hw

/-- **A new binding keeps a substitution acyclic** if its variable does not occur in what it is
bound to, once that is resolved. -/
theorem Acyclic.insert (hs : s.Acyclic) {n : Nat} {t : Ty} (hn : s[n]? = none)
    (hnt : n ∉ (s.apply t).ids) : Acyclic (Std.ExtTreeMap.insert s n t) := by
  classical
  obtain ⟨rank, hrank, hsize, -⟩ := hs.exists_rank
  have hreach : ∀ w ∈ t.ids, ¬ReflTransGen s.Step w n := fun w hw hwn =>
    hnt (hs.mem_ids_apply.mpr ⟨hn, w, hw, hwn⟩)
  -- the variables that reach `n` are lifted above all the others
  let lift : Nat → Nat := fun x => if ReflTransGen s.Step x n then rank x + (s.size + 1) else rank x
  refine acyclic_of_rank lift ?_
  rintro v w ⟨u, hu, hw⟩
  rw [Std.ExtTreeMap.getElem?_insert] at hu
  split at hu
  · next heq =>
    rw [Nat.compare_eq_eq] at heq
    rw [Option.some.injEq] at hu
    subst heq hu
    have h1 : lift w = rank w := if_neg (hreach w hw)
    have h2 : lift n = rank n + (s.size + 1) := if_pos .refl
    have := hsize w
    omega
  · have hstep : s.Step v w := ⟨u, hu, hw⟩
    have h := hrank v w hstep
    by_cases hwn : ReflTransGen s.Step w n
    · have h1 : lift w = rank w + (s.size + 1) := if_pos hwn
      have h2 : lift v = rank v + (s.size + 1) := if_pos (.head hstep hwn)
      omega
    · have h1 : lift w = rank w := if_neg hwn
      have h2 : rank v ≤ lift v := by
        simp only [lift]
        split <;> omega
      omega

/-! ### Following bindings to their end -/

/-- Following the bindings of `s` from a type, everywhere in it, comes to an end. -/
inductive LeadsTo (s : Subst) : Ty → Ty → Prop
  | unbound {v : TVar} : s[v.id]? = none → LeadsTo s (.var v) (.var v)
  | bound {v : TVar} {t u : Ty} : s[v.id]? = some t → LeadsTo s t u → LeadsTo s (.var v) u
  | con {name : String} {ts us : List Ty} : List.Forall₂ (LeadsTo s) ts us →
      LeadsTo s (.con name ts) (.con name us)

/-- Induction along the bindings that are followed. -/
theorem LeadsTo.induction {motive : (t u : Ty) → s.LeadsTo t u → Prop}
    (unbound : ∀ v (hv : s[v.id]? = none), motive (.var v) (.var v) (.unbound hv))
    (bound : ∀ v t u (hv : s[v.id]? = some t) (h : s.LeadsTo t u), motive t u h →
      motive (.var v) u (.bound hv h))
    (con : ∀ name ts us (h : List.Forall₂ s.LeadsTo ts us),
      List.Forall₂ (fun t u => ∃ h, motive t u h) ts us →
        motive (.con name ts) (.con name us) (.con h))
    {t u : Ty} (h : s.LeadsTo t u) : motive t u h :=
  @LeadsTo.rec s motive (fun ts us _ => List.Forall₂ (fun t u => ∃ h, motive t u h) ts us)
    (fun {v} hv => unbound v hv) (fun {v t u} hv h ih => bound v t u hv h ih)
    (fun {name ts us} h ih => con name ts us h ih) .nil (fun h _ ih ihs => .cons ⟨h, ih⟩ ihs) t u h

theorem mapM_eq_some_iff {f : Ty → Option Ty} {ts us : List Ty} :
    ts.mapM f = some us ↔ List.Forall₂ (fun t u => f t = some u) ts us := by
  induction ts generalizing us with
  | nil => simp [eq_comm]
  | cons t ts ih =>
    rw [List.mapM_cons, List.forall₂_cons_left_iff]
    simp only [Option.bind_eq_bind, Option.bind_eq_some_iff, Option.pure_def, Option.some.injEq, ih]
    constructor
    · rintro ⟨u, hu, us', hus, rfl⟩
      exact ⟨u, us', hu, hus, rfl⟩
    · rintro ⟨u, us', hu, hus, rfl⟩
      exact ⟨u, hu, us', hus, rfl⟩

theorem LeadsTo.acc {t u : Ty} (h : s.LeadsTo t u) : Acc s.Below t := by
  induction h using LeadsTo.induction with
  | unbound v hv => exact acc_var_of_unbound hv
  | bound v t u hv _ ih => exact acc_var_of_bound hv ih
  | con name ts us hargs ih =>
    clear hargs
    refine acc_con ?_
    induction ih with
    | nil => nofun
    | cons hhead _ ihs =>
      obtain ⟨-, hacc⟩ := hhead
      exact List.forall_mem_cons.mpr ⟨hacc, ihs⟩

theorem acc_of_follow? {t u : Ty} (h : s.follow? t = some u) : Acc s.Below t :=
  (WellFounded.partialExtrinsicFix s.Below s.followOnce t).property (Option.isSome_of_eq_some h)

theorem follow?_var_of_unbound {v : TVar} (hv : s[v.id]? = none) :
    s.follow? (.var v) = some (.var v) := by
  rw [follow?, WellFounded.partialExtrinsicFix_eq_apply_of_acc (acc_var_of_unbound hv), followOnce]
  split
  · next h => simp [hv] at h
  · rfl

theorem follow?_var_of_bound {v : TVar} {t : Ty} (hv : s[v.id]? = some t) (h : Acc s.Below t) :
    s.follow? (.var v) = s.follow? t := by
  rw [follow?, WellFounded.partialExtrinsicFix_eq_apply_of_acc (acc_var_of_bound hv h), followOnce]
  split
  · next h =>
    cases hv.symm.trans h
    rfl
  · next h => simp [hv] at h

theorem follow?_con {name : String} {args : List Ty} (h : ∀ a ∈ args, Acc s.Below a) :
    s.follow? (.con name args) = (args.mapM s.follow?).map (.con name) := by
  rw [follow?, WellFounded.partialExtrinsicFix_eq_apply_of_acc (acc_con h), followOnce]
  change (args.attach.mapM fun a => s.follow? a.val).map (Term.con name) = _
  simp

/-- **Following bindings without a bound has a result exactly where it comes to an end.** -/
theorem follow?_eq_some_iff {t u : Ty} : s.follow? t = some u ↔ s.LeadsTo t u := by
  constructor
  · intro h
    -- a result is found only where every way down ends
    induction acc_of_follow? h generalizing u with
    | intro t hacc ih =>
      cases t with
      | var v =>
        cases hv : s[v.id]? with
        | none =>
          rw [follow?_var_of_unbound hv, Option.some.injEq] at h
          exact h ▸ .unbound hv
        | some bound =>
          have hbelow : s.Below bound (.var v) := .binding hv
          rw [follow?_var_of_bound hv (hacc bound hbelow)] at h
          exact .bound hv (ih bound hbelow h)
      | con name args =>
        rw [follow?_con fun a ha => hacc a (.argument ha), Option.map_eq_some_iff] at h
        obtain ⟨us, hus, rfl⟩ := h
        obtain ⟨hlength, hzip⟩ := List.forall₂_iff_zip.mp (mapM_eq_some_iff.mp hus)
        refine .con (List.forall₂_iff_zip.mpr ⟨hlength, fun {a b} hab => ?_⟩)
        exact ih a (.argument (List.of_mem_zip hab).1) (hzip hab)
  · intro h
    induction h using LeadsTo.induction with
    | unbound v hv => exact follow?_var_of_unbound hv
    | bound v t u hv h ih => rw [follow?_var_of_bound hv h.acc, ih]
    | con name ts us h ih =>
      have hend : s.LeadsTo (.con name ts) (.con name us) := .con h
      have hacc : ∀ a ∈ ts, Acc s.Below a := fun a ha => hend.acc.inv (.argument ha)
      rw [follow?_con hacc, mapM_eq_some_iff.mpr (ih.imp fun t u h => h.2)]
      rfl

/-- **In an acyclic substitution bindings lead to the resolved type, and nowhere else.** -/
theorem Acyclic.leadsTo_iff (hs : s.Acyclic) {t u : Ty} :
    s.LeadsTo t u ↔ u = s.apply t := by
  induction t using hs.induction generalizing u with
  | unbound v hv =>
    rw [apply_var_of_unbound hv]
    constructor
    · intro h
      cases h with
      | unbound _ => rfl
      | bound hb _ =>
        rw [hv] at hb
        exact absurd hb (by simp)
    · rintro rfl
      exact .unbound hv
  | bound v t hv ih =>
    rw [hs.apply_var_of_bound hv]
    constructor
    · intro h
      cases h with
      | unbound hb =>
        rw [hv] at hb
        exact absurd hb (by simp)
      | bound hb hu =>
        rw [hv, Option.some.injEq] at hb
        subst hb
        exact ih.mp hu
    · intro h
      exact .bound hv (ih.mpr h)
  | con name args ih =>
    rw [apply_con]
    -- the arguments lead where the whole leads, one by one
    have hargs : ∀ us, List.Forall₂ s.LeadsTo args us ↔ us = args.map s.apply := by
      induction args with
      | nil => simp
      | cons a args ihs =>
        intro us
        rw [List.forall_mem_cons] at ih
        rw [List.forall₂_cons_left_iff, List.map_cons]
        constructor
        · rintro ⟨b, bs, hb, hbs, rfl⟩
          rw [ih.1.mp hb, (ihs ih.2 bs).mp hbs]
        · rintro rfl
          exact ⟨_, _, ih.1.mpr rfl, (ihs ih.2 _).mpr rfl, rfl⟩
    constructor
    · intro h
      cases h with
      | con h => rw [(hargs _).mp h]
    · rintro rfl
      exact .con ((hargs _).mpr rfl)

/-! ### Closed sets of variables -/

/-- The bindings of the variables in `K` mention only variables in `K`. -/
def ClosedOn (K : Nat → Prop) (s : Subst) : Prop :=
  ∀ v t, K v → s[v]? = some t → ∀ w ∈ t.ids, K w

/-- Two substitutions that agree on a closed set of variables resolve the types over it alike. -/
theorem Acyclic.apply_eq_of_agree (hs : s.Acyclic) (hs' : s'.Acyclic) {K : Nat → Prop}
    (hK : ClosedOn K s) (h : ∀ v, K v → s'[v]? = s[v]?) {t : Ty} (ht : ∀ w ∈ t.ids, K w) :
    s'.apply t = s.apply t := by
  induction t using hs.induction with
  | unbound v hv =>
    rw [apply_var_of_unbound hv, apply_var_of_unbound]
    rw [h v.id (ht v.id (by simp)), hv]
  | bound v u hv ih =>
    have hvK := ht v.id (by simp)
    -- both substitutions bind the variable to one type, which is over the closed set again
    rw [hs.apply_var_of_bound hv, hs'.apply_var_of_bound ((h v.id hvK).trans hv)]
    exact ih (hK v.id u hvK hv)
  | con name args ih =>
    rw [apply_con, apply_con]
    congr 1
    refine List.map_congr_left fun a ha => ih a ha fun w hw => ht w ?_
    rw [Ty.ids_con, List.mem_flatMap]
    exact ⟨a, ha, hw⟩

/-- A type over a closed set of variables is resolved to one. -/
theorem Acyclic.ids_apply_subset (hs : s.Acyclic) {K : Nat → Prop} (hK : ClosedOn K s) {t : Ty}
    (ht : ∀ w ∈ t.ids, K w) : ∀ w ∈ (s.apply t).ids, K w := by
  intro w hw
  obtain ⟨-, v, hv, hvw⟩ := hs.mem_ids_apply.mp hw
  have hv := ht v hv
  clear hw
  induction hvw with
  | refl => exact hv
  | tail _ hstep ih =>
    obtain ⟨u, hu, hx⟩ := hstep
    exact hK _ u ih hu _ hx

end Subst

end LetTyping
