import LetTyping.Proofs.Acyclic
import LetTyping.Unify

/-!
# What unification writes

Unification changes a substitution by writes alone, and every type it writes is one that it found in
the types it was given or in the bindings it met on its way.  So a property that passes from types
to their parts, and that the given types and the bindings in reach have, is one of all the types
written; and a variable out of reach keeps its binding.

## Main definitions

* `Hereditary` — a property that passes from types to their parts.
* `Subst.Bounded` — the variables in reach are bound to types with a property.
* `Run.Writes` — one run comes from another by writes with a property.

## Main results

* `Run.unifyWithin_writes` — unification changes a run by writes of the types it is given.
* `unify_frame` — what unification keeps, in and out of its reach.
* `unify_error` — a failure leaves the substitution as it was.
-/

namespace LetTyping

/-- The property `P` of types passes to their parts, and variables with it are in `K`. -/
structure Hereditary (K : Nat → Prop) (P : Ty → Prop) : Prop where
  /-- A variable with the property is in reach. -/
  var : ∀ v, P (.var v) → K v.id
  /-- The arguments of a type with the property have it. -/
  args : ∀ name args, P (.con name args) → ∀ a ∈ args, P a

/-- The variables in `K` are bound to types with the property `P`, if they are bound. -/
def Subst.Bounded (K : Nat → Prop) (P : Ty → Prop) (s : Subst) : Prop :=
  ∀ v t, K v → s[v]? = some t → P t

variable {K : Nat → Prop} {P : Ty → Prop}

/-- The variables of a type are in `K`. -/
abbrev Over (K : Nat → Prop) (t : Ty) : Prop := ∀ w ∈ t.ids, K w

theorem over_con {name : String} {args : List Ty} :
    Over K (.con name args) ↔ ∀ a ∈ args, Over K a := by
  simp only [Over, Ty.ids_con, List.mem_flatMap, forall_exists_index, and_imp]
  exact ⟨fun h a ha w hw => h w a ha hw, fun h w a ha hw => h a ha w hw⟩

theorem over_arrow {a b : Ty} : Over K (.arrow a b) ↔ Over K a ∧ Over K b := by
  rw [Ty.arrow, over_con, List.forall_mem_cons, List.forall_mem_singleton]

theorem over_failure {a b : Ty} : Over K (.failure a b) ↔ Over K a ∧ Over K b := by
  rw [Ty.failure, over_con, List.forall_mem_cons, List.forall_mem_singleton]

/-- Having all variables in `K` passes to parts. -/
theorem hereditary_ids (K : Nat → Prop) : Hereditary K (Over K) where
  var := fun v h => h v.id (by simp)
  args := fun _ _ h => over_con.mp h

namespace Run

@[simp] theorem write_subst (r : Run) (id : Nat) (t : Ty) :
    (r.write id t).subst = r.subst.insert id t := rfl

theorem getElem?_write (r : Run) (id : Nat) (t : Ty) (n : Nat) :
    (r.write id t).subst[n]? = if id = n then some t else r.subst[n]? := by
  rw [write_subst, Std.ExtTreeMap.getElem?_insert]
  simp only [Nat.compare_eq_eq]

/-! ### Sequences of writes -/

/-- The run `r'` comes from `r` by writes of types with the property `P` to variables in `K`. -/
inductive Writes (K : Nat → Prop) (P : Ty → Prop) (r : Run) : Run → Prop
  | refl : Writes K P r r
  | write {r' : Run} {id : Nat} {t : Ty} : Writes K P r r' → K id → P t →
      Writes K P r (r'.write id t)

namespace Writes

variable {r r' r'' : Run}

theorem trans (h : Writes K P r r') (h' : Writes K P r' r'') : Writes K P r r'' := by
  induction h' with
  | refl => exact h
  | write _ hid ht ih => exact .write ih hid ht

/-- Taking all the writes back leads to the same substitution. -/
theorem undo_eq (h : Writes K P r r') : r'.undo = r.undo := by
  induction h with
  | refl => rfl
  | write _ _ _ ih => rw [undo_write, ih]

/-- A variable out of reach keeps its binding. -/
theorem getElem?_eq (h : Writes K P r r') {v : Nat} (hv : ¬K v) :
    r'.subst[v]? = r.subst[v]? := by
  induction h with
  | refl => rfl
  | write _ hid _ ih =>
    rw [getElem?_write, if_neg, ih]
    rintro rfl
    exact hv hid

theorem bounded (h : Writes K P r r') (hr : r.subst.Bounded K P) : r'.subst.Bounded K P := by
  induction h with
  | refl => exact hr
  | write _ _ ht ih =>
    intro v u hv hu
    rw [getElem?_write] at hu
    split at hu
    · rw [Option.some.injEq] at hu
      exact hu ▸ ht
    · exact ih v u hv hu

end Writes

/-! ### The writes of each part of unification -/

theorem chase_spec (hP : Hereditary K P) {s : Subst} (hs : s.Bounded K P) :
    ∀ (bound : Nat) (t : Ty), P t →
      P (chase s bound t).2 ∧ ∀ id ∈ (chase s bound t).1, K id := by
  intro bound
  induction bound with
  | zero =>
    intro t ht
    simp only [chase]
    exact ⟨ht, by simp⟩
  | succ bound ih =>
    intro t ht
    cases t with
    | con name args =>
      simp only [chase]
      exact ⟨ht, by simp⟩
    | var v =>
      have hv := hP.var v ht
      simp only [chase]
      cases hb : s[v.id]? with
      | none => exact ⟨ht, by simp⟩
      | some u =>
        -- the variable is in reach, so what it is bound to has the property
        obtain ⟨hlast, hpath⟩ := ih u (hs v.id u hv hb)
        refine ⟨hlast, fun id hid => ?_⟩
        rcases List.mem_cons.mp hid with rfl | hid
        · exact hv
        · exact hpath id hid

/-- Binding several variables to one type is a sequence of writes. -/
theorem writes_foldl {r : Run} {u : Ty} (hu : P u) :
    ∀ (ids : List Nat) (r' : Run), Writes K P r r' → (∀ id ∈ ids, K id) →
      Writes K P r (ids.foldl (fun r id => r.write id u) r') := by
  intro ids
  induction ids with
  | nil => intro r' h _; exact h
  | cons id ids ih =>
    intro r' h hids
    exact ih (r'.write id u) (.write h (hids id List.mem_cons_self) hu)
      fun i hi => hids i (List.mem_cons_of_mem _ hi)

theorem find_writes (hP : Hereditary K P) {r : Run} (hr : r.subst.Bounded K P) {t : Ty}
    (ht : P t) : P (r.find t).1 ∧ Writes K P r (r.find t).2 := by
  obtain ⟨hlast, hpath⟩ := chase_spec hP hr r.subst.size t ht
  exact ⟨hlast, writes_foldl hlast _ r .refl fun id hid => hpath id (List.dropLast_subset _ hid)⟩

/-- Tests that write like this one by one write like this together. -/
theorem anyOf_writes {test : Ty → Run → Bool × Run}
    (htest : ∀ (t : Ty) (r : Run), P t → r.subst.Bounded K P → Writes K P r (test t r).2) :
    ∀ (ts : List Ty) (r : Run), (∀ t ∈ ts, P t) → r.subst.Bounded K P →
      Writes K P r (anyOf test ts r).2 := by
  intro ts
  induction ts with
  | nil => intro r _ _; exact .refl
  | cons t ts ih =>
    intro r hts hr
    have h := htest t r (hts t List.mem_cons_self) hr
    rw [anyOf]
    rcases hres : test t r with ⟨_ | _, r₁⟩ <;> rw [hres] at h
    · exact h.trans (ih r₁ (fun u hu => hts u (List.mem_cons_of_mem _ hu)) (h.bounded hr))
    · exact h

theorem occurs_writes (hP : Hereditary K P) (id : Nat) :
    ∀ (depth : Nat) (t : Ty) (r : Run), P t → r.subst.Bounded K P →
      Writes K P r (r.occurs id depth t).2 := by
  intro depth
  induction depth with
  | zero => intro t r _ _; exact .refl
  | succ depth ih =>
    intro t r ht hr
    obtain ⟨hu, hw⟩ := find_writes hP hr ht
    rw [occurs]
    rcases hres : r.find t with ⟨v | ⟨name, args⟩, r₁⟩ <;> rw [hres] at hu hw
    · exact hw
    · exact hw.trans (anyOf_writes ih args r₁ (hP.args name args hu) (hw.bounded hr))

theorem bindVar_writes (hP : Hereditary K P) (depth : Nat) {v : TVar} {t : Ty} {r : Run}
    (hv : K v.id) (ht : P t) (hr : r.subst.Bounded K P) :
    Writes K P r (r.bindVar depth v t).2 := by
  have h := occurs_writes hP v.id depth t r ht hr
  rw [bindVar]
  rcases hres : r.occurs v.id depth t with ⟨_ | _, r₁⟩ <;> rw [hres] at h
  · exact .write h hv ht
  · exact h

theorem unifyAll_writes {unify : Ty → Ty → Run → Except Clash Unit × Run}
    (hunify : ∀ (a b : Ty) (r : Run), P a → P b → r.subst.Bounded K P →
      Writes K P r (unify a b r).2) :
    ∀ (as bs : List Ty) (r : Run), (∀ a ∈ as, P a) → (∀ b ∈ bs, P b) → r.subst.Bounded K P →
      Writes K P r (unifyAll unify as bs r).2 := by
  intro as
  induction as with
  | nil => intro bs r _ _ _; exact .refl
  | cons a as ih =>
    intro bs r has hbs hr
    cases bs with
    | nil => exact .refl
    | cons b bs =>
      have h := hunify a b r (has a List.mem_cons_self) (hbs b List.mem_cons_self) hr
      rw [unifyAll]
      rcases hres : unify a b r with ⟨_ | _, r₁⟩ <;> rw [hres] at h
      · exact h
      · exact h.trans (ih bs r₁ (fun x hx => has x (List.mem_cons_of_mem _ hx))
          (fun x hx => hbs x (List.mem_cons_of_mem _ hx)) (h.bounded hr))

/-- What unification does with the terms that two types stand for. -/
def meet (depth : Nat) : Ty → Ty → Run → Except Clash Unit × Run
  | .var v, .var w, r =>
    if v.id = w.id then (.ok (), r) else r.bindVar (depth + 1) w (.var v)
  | .var v, .con n ts, r => r.bindVar (depth + 1) v (.con n ts)
  | .con n ts, .var w, r => r.bindVar (depth + 1) w (.con n ts)
  | .con m ss, .con n ts, r =>
    if m = n ∧ ss.length = ts.length then unifyAll (unifyWithin depth) ss ts r
    else (.error .mismatch, r)

theorem unifyWithin_succ (depth : Nat) (a b : Ty) (r : Run) :
    unifyWithin (depth + 1) a b r =
      meet depth (r.find a).1 ((r.find a).2.find b).1 ((r.find a).2.find b).2 := by
  rw [unifyWithin]
  rcases r.find a with ⟨a, r₁⟩
  simp only
  rcases r₁.find b with ⟨b, r₂⟩
  cases a <;> cases b <;> rfl

/-- **Unification changes a run by writes of the types it is given**, their parts, and those of the
bindings in reach. -/
theorem unifyWithin_writes (hP : Hereditary K P) :
    ∀ (depth : Nat) (a b : Ty) (r : Run), P a → P b → r.subst.Bounded K P →
      Writes K P r (unifyWithin depth a b r).2 := by
  intro depth
  induction depth with
  | zero => intro a b r _ _ _; exact .refl
  | succ depth ih =>
    intro a b r ha hb hr
    obtain ⟨ha, h₁⟩ := find_writes hP hr ha
    obtain ⟨hb, h₂⟩ := find_writes hP (h₁.bounded hr) hb
    -- the searches write only types with the property, so the bindings in reach keep it
    have hr₂ := h₂.bounded (h₁.bounded hr)
    rw [unifyWithin_succ]
    refine (h₁.trans h₂).trans ?_
    generalize ((r.find a).2.find b).2 = r₂ at hr₂ ⊢
    generalize (r.find a).1 = a at ha ⊢
    generalize ((r.find _).2.find b).1 = b at hb ⊢
    cases a with
    | var v =>
      cases b with
      | var w =>
        rw [meet]
        split
        · exact .refl
        · exact bindVar_writes hP _ (hP.var w hb) ha hr₂
      | con n ts => exact bindVar_writes hP _ (hP.var v ha) hb hr₂
    | con m ss =>
      cases b with
      | var w => exact bindVar_writes hP _ (hP.var w hb) ha hr₂
      | con n ts =>
        rw [meet]
        split
        · exact unifyAll_writes ih ss ts r₂ (hP.args m ss ha) (hP.args n ts hb) hr₂
        · exact .refl

end Run

/-! ### The whole of unification -/

/-- Taking all the writes of unification back leads to the substitution it started with. -/
theorem Run.undo_unifyWithin (depth : Nat) (a b : Ty) (s : Subst) :
    (unifyWithin depth a b ⟨s, []⟩).2.undo = s := by
  have hw := unifyWithin_writes (K := fun _ => True) (P := fun _ => True)
    ⟨fun _ _ => trivial, fun _ _ _ _ _ => trivial⟩ depth a b ⟨s, []⟩ trivial trivial
    fun _ _ _ _ => trivial
  exact hw.undo_eq

/-- **A failure leaves the substitution as it was.** -/
theorem unify_error {s : Subst} {a b : Ty} {cause : TypeCause}
    (h : (unify s a b).1 = .error cause) : (unify s a b).2 = s := by
  have hundo := Run.undo_unifyWithin (s.constructors + a.constructors + b.constructors + 1) a b s
  rw [unify] at h ⊢
  rcases hres : Run.unifyWithin _ a b ⟨s, []⟩ with ⟨_ | _, r⟩ <;> rw [hres] at h hundo
  · exact hundo
  · exact absurd h (by simp)

/-- **What unification keeps.**  If the given types and the bindings in reach have a hereditary
property, then so do the bindings afterwards, and variables out of reach keep their bindings. -/
theorem unify_frame (hP : Hereditary K P) {s : Subst} (hs : s.Bounded K P) {a b : Ty} (ha : P a)
    (hb : P b) : (unify s a b).2.Bounded K P ∧ ∀ v, ¬K v → (unify s a b).2[v]? = s[v]? := by
  have hw := Run.unifyWithin_writes hP (s.constructors + a.constructors + b.constructors + 1) a b
    ⟨s, []⟩ ha hb hs
  cases hres : (unify s a b).1 with
  | error cause =>
    rw [unify_error hres]
    exact ⟨hs, fun _ _ => rfl⟩
  | ok _ =>
    rw [unify] at hres ⊢
    rcases hrun : Run.unifyWithin _ a b ⟨s, []⟩ with ⟨_ | _, r⟩ <;> rw [hrun] at hres hw
    · exact absurd hres (by simp)
    · exact ⟨hw.bounded hs, fun v hv => hw.getElem?_eq hv⟩

end LetTyping
