import LetTyping.Proofs.Trail

/-!
# Shortening chains of bindings

Searching the term that a type stands for binds the variables on the way to the end of the way, and
the occurs check searches many times.  Neither shows in what types are resolved to, nor in which
variables are bound.

## Main definitions

* `Subst.root`, `Subst.path` — the end of a chain of bindings and the variables on the way.
* `Subst.Ranked` — bindings lead from higher to lower ranks.
* `Run.Compressed` — a run differs from another by shorter chains only.

## Main results

* `Run.find_compressed` — searching only shortens chains.
* `Run.occurs_spec` — the occurs check is right and only shortens chains.
-/

namespace LetTyping

namespace Subst

variable {s : Subst}

/-- All bindings lead from higher to lower ranks. -/
def Ranked (rank : Nat → Nat) (s : Subst) : Prop := ∀ v w, s.Step v w → rank w < rank v

/-! ### Chains of bindings -/

/-- The term that a type stands for, up to its arguments. -/
def root (s : Subst) (t : Ty) : Ty := (Run.chase s s.size t).2

/-- The variables on the way from a type to the term it stands for. -/
def path (s : Subst) (t : Ty) : List Nat := (Run.chase s s.size t).1

theorem chase_con (s : Subst) (bound : Nat) (name : String) (args : List Ty) :
    Run.chase s bound (.con name args) = ([], .con name args) := by
  cases bound <;> rfl

theorem chase_of_unbound {v : TVar} (h : s[v.id]? = none) (bound : Nat) :
    Run.chase s bound (.var v) = ([], .var v) := by
  cases bound with
  | zero => rfl
  | succ bound => simp only [Run.chase, h]

/-- Following a chain further changes nothing, once every rank is covered. -/
theorem chase_succ {rank : Nat → Nat} (hrank : s.Ranked rank)
    (hpos : ∀ v t, s[v]? = some t → 0 < rank v) (bound : Nat) (t : Ty)
    (ht : ∀ w ∈ t.ids, rank w ≤ bound) : Run.chase s (bound + 1) t = Run.chase s bound t := by
  induction bound generalizing t with
  | zero =>
    cases t with
    | con name args => rfl
    | var v =>
      have h0 := ht v.id (by simp)
      cases hb : s[v.id]? with
      | none => rw [chase_of_unbound hb, chase_of_unbound hb]
      -- a bound variable has a positive rank, which a bound of zero does not cover
      | some u => exact absurd (hpos v.id u hb) (by omega)
  | succ bound ih =>
    cases t with
    | con name args => rfl
    | var v =>
      have hv := ht v.id (by simp)
      cases hb : s[v.id]? with
      | none => rw [chase_of_unbound hb, chase_of_unbound hb]
      | some u =>
        -- a step along the chain lowers the rank by one at least, as it does the bound
        have hu : Run.chase s (bound + 1) u = Run.chase s bound u := by
          refine ih u fun w hw => ?_
          have := hrank v.id w ⟨u, hb, hw⟩
          omega
        rw [Run.chase, Run.chase, hb]
        simp only
        rw [hu]

theorem Acyclic.chase_of_bound (hs : s.Acyclic) {v : TVar} {t : Ty} (h : s[v.id]? = some t) :
    Run.chase s s.size (.var v) = (v.id :: s.path t, s.root t) := by
  obtain ⟨rank, hrank, hsize, hpos⟩ := hs.exists_rank
  have hv := hsize v.id
  rw [path, root]
  cases hd : s.size with
  | zero =>
    have := hpos v.id t h
    omega
  | succ bound =>
    rw [chase_succ hrank hpos bound t, Run.chase, h]
    intro w hw
    have := hrank v.id w ⟨t, h, hw⟩
    omega

@[simp] theorem root_con (s : Subst) (name : String) (args : List Ty) :
    s.root (.con name args) = .con name args := by
  rw [root, chase_con]

@[simp] theorem path_con (s : Subst) (name : String) (args : List Ty) :
    s.path (.con name args) = [] := by
  rw [path, chase_con]

theorem root_of_unbound {v : TVar} (h : s[v.id]? = none) : s.root (.var v) = .var v := by
  rw [root, chase_of_unbound h]

theorem path_of_unbound {v : TVar} (h : s[v.id]? = none) : s.path (.var v) = [] := by
  rw [path, chase_of_unbound h]

theorem Acyclic.root_of_bound (hs : s.Acyclic) {v : TVar} {t : Ty} (h : s[v.id]? = some t) :
    s.root (.var v) = s.root t := by
  rw [root, hs.chase_of_bound h]

theorem Acyclic.path_of_bound (hs : s.Acyclic) {v : TVar} {t : Ty} (h : s[v.id]? = some t) :
    s.path (.var v) = v.id :: s.path t := by
  rw [path, hs.chase_of_bound h]

/-- A variable at the end of a chain is unbound. -/
theorem Acyclic.unbound_of_root (hs : s.Acyclic) {t : Ty} {v : TVar} (h : s.root t = .var v) :
    s[v.id]? = none := by
  induction t using hs.induction with
  | unbound w hw =>
    rw [root_of_unbound hw, Term.var.injEq] at h
    exact h ▸ hw
  | bound w u hw ih => exact ih (hs.root_of_bound hw ▸ h)
  | con name args => exact absurd h (by simp)

/-- A type and the term it stands for are resolved alike. -/
theorem Acyclic.apply_root (hs : s.Acyclic) (t : Ty) : s.apply (s.root t) = s.apply t := by
  induction t using hs.induction with
  | unbound v hv => rw [root_of_unbound hv]
  | bound v u hv ih => rw [hs.root_of_bound hv, hs.apply_var_of_bound hv, ih]
  | con name args => rw [root_con]

/-- The variables on the way are bound, are resolved like the end of the way, and rank above the
variables there. -/
theorem Acyclic.path_spec (hs : s.Acyclic) {rank : Nat → Nat} (hrank : s.Ranked rank) (t : Ty) :
    ∀ id ∈ s.path t, s[id]? ≠ none ∧
      (∀ tag, s.apply (.var ⟨id, tag⟩) = s.apply (s.root t)) ∧
      ∀ w ∈ (s.root t).ids, rank w < rank id := by
  induction t using hs.induction with
  | unbound v hv => simp [path_of_unbound hv]
  | con name args => simp
  | bound v u hv ih =>
    rw [hs.path_of_bound hv, hs.root_of_bound hv]
    intro id hid
    rcases List.mem_cons.mp hid with rfl | hid
    · refine ⟨by simp [hv], fun tag => ?_, fun w hw => ?_⟩
      · rw [hs.apply_root, hs.apply_var_of_bound (v := ⟨v.id, tag⟩) hv]
      · -- the end of the way is the binding itself or lies below a variable in it
        cases u with
        | con name args => exact hrank v.id w ⟨_, hv, by simpa using hw⟩
        | var x =>
          have hx := hrank v.id x.id ⟨_, hv, by simp⟩
          cases hb : s[x.id]? with
          | none =>
            rw [root_of_unbound hb, Ty.ids_var, List.mem_singleton] at hw
            exact hw ▸ hx
          | some y =>
            have hmem : x.id ∈ s.path (.var x) := by
              rw [hs.path_of_bound hb]
              exact List.mem_cons_self
            exact lt_trans ((ih x.id hmem).2.2 w hw) hx
    · exact ih id hid

end Subst

namespace Run

/-! ### Shorter chains -/

/-- The run `r'` differs from `r` by shorter chains of bindings only. -/
structure Compressed (r r' : Run) : Prop where
  /-- The bindings are still acyclic. -/
  acyclic : r'.subst.Acyclic
  /-- Types are resolved as before. -/
  apply_eq : ∀ t, r'.subst.apply t = r.subst.apply t
  /-- The same variables are unbound. -/
  unbound_iff : ∀ n : Nat, r'.subst[n]? = none ↔ r.subst[n]? = none

namespace Compressed

variable {r r' r'' : Run}

theorem refl (h : r.subst.Acyclic) : Compressed r r := ⟨h, fun _ => rfl, fun _ => Iff.rfl⟩

theorem trans (h : Compressed r r') (h' : Compressed r' r'') : Compressed r r'' where
  acyclic := h'.acyclic
  apply_eq := fun t => (h'.apply_eq t).trans (h.apply_eq t)
  unbound_iff := fun n => (h'.unbound_iff n).trans (h.unbound_iff n)

end Compressed

/-- Binding a bound variable to a type of lower rank that is resolved alike shortens a chain. -/
theorem write_compressed {rank : Nat → Nat} {r : Run} (hrank : r.subst.Ranked rank) {id : Nat}
    {u : Ty} (hid : r.subst[id]? ≠ none)
    (happly : ∀ tag, r.subst.apply (.var ⟨id, tag⟩) = r.subst.apply u)
    (hu : ∀ w ∈ u.ids, rank w < rank id) :
    Compressed r (r.write id u) ∧ (r.write id u).subst.Ranked rank := by
  have hs := Subst.acyclic_of_rank rank hrank
  have hget : ∀ n, (r.write id u).subst[n]? = if id = n then some u else r.subst[n]? :=
    r.getElem?_write id u
  -- the ranks serve the new bindings too, so these are still acyclic
  have hranked : (r.write id u).subst.Ranked rank := by
    rintro v w ⟨t, ht, hw⟩
    rw [hget] at ht
    split at ht
    · next h =>
      rw [Option.some.injEq] at ht
      exact h ▸ hu w (ht ▸ hw)
    · exact hrank v w ⟨t, ht, hw⟩
  have hs' := Subst.acyclic_of_rank rank hranked
  have hunbound : ∀ n : Nat, (r.write id u).subst[n]? = none ↔ r.subst[n]? = none := by
    intro n
    rw [hget]
    split
    · next h => exact iff_of_false (by simp) (h ▸ hid)
    · exact Iff.rfl
  refine ⟨⟨hs', fun t => ?_, hunbound⟩, hranked⟩
  -- by induction along the new bindings, which are the old ones but for one
  induction t using hs'.induction with
  | unbound v hv =>
    rw [Subst.apply_var_of_unbound hv, Subst.apply_var_of_unbound ((hunbound v.id).mp hv)]
  | bound v t hv ih =>
    rw [hs'.apply_var_of_bound hv, ih]
    rw [hget] at hv
    split at hv
    -- the shortened chain ends where the longer one ended
    · next h =>
      rw [Option.some.injEq] at hv
      rw [← hv, ← happly v.tag, h]
    · rw [hs.apply_var_of_bound hv]
  | con name args ih =>
    rw [Subst.apply_con, Subst.apply_con, List.map_congr_left ih]

theorem find_eq (r : Run) (t : Ty) :
    r.find t = (r.subst.root t,
      (r.subst.path t).dropLast.foldl (fun r' id => r'.write id (r.subst.root t)) r) := rfl

/-- **Searching only shortens chains.** -/
theorem find_compressed {r : Run} (hs : r.subst.Acyclic) (t : Ty) :
    Compressed r (r.find t).2 := by
  obtain ⟨rank, hrank, -, -⟩ := hs.exists_rank
  have hpath := hs.path_spec hrank t
  -- the variables of the path are bound to its end one by one; each is still bound, and its rank is
  -- above that of the end
  have key : ∀ (ids : List Nat) (r' : Run), (∀ id ∈ ids, id ∈ r.subst.path t) →
      Compressed r r' → r'.subst.Ranked rank →
      Compressed r (ids.foldl (fun r' id => r'.write id (r.subst.root t)) r') := by
    intro ids
    induction ids with
    | nil => intro r' _ h _; exact h
    | cons id ids ih =>
      intro r' hids h hr'
      obtain ⟨hid, happly, hlt⟩ := hpath id (hids id List.mem_cons_self)
      obtain ⟨hc, hrank'⟩ := write_compressed hr' (mt (h.unbound_iff id).mp hid)
        (fun tag => by rw [h.apply_eq, h.apply_eq, happly]) hlt
      exact ih _ (fun i hi => hids i (List.mem_cons_of_mem _ hi)) (h.trans hc) hrank'
  rw [find_eq]
  exact key _ r (fun id hid => List.dropLast_subset _ hid) (.refl hs) hrank

/-- Types and the terms found for them, one after the other, are resolved alike. -/
theorem apply_find {r : Run} (hs : r.subst.Acyclic) (x y : Ty) :
    r.subst.apply (r.find x).1 = r.subst.apply x ∧
      r.subst.apply ((r.find x).2.find y).1 = r.subst.apply y := by
  have hc := find_compressed hs x
  refine ⟨hs.apply_root x, ?_⟩
  rw [← hc.apply_eq, ← hc.apply_eq]
  exact hc.acyclic.apply_root y

/-! ### The occurs check -/

/-- A test that is right about every type is right about some types together. -/
theorem anyOf_spec {test : Ty → Run → Bool × Run} {holds : Ty → Prop} {r : Run} :
    ∀ (ts : List Ty) (r' : Run), Compressed r r' →
      (∀ t ∈ ts, ∀ r', Compressed r r' →
        Compressed r (test t r').2 ∧ ((test t r').1 = true ↔ holds t)) →
      Compressed r (anyOf test ts r').2 ∧ ((anyOf test ts r').1 = true ↔ ∃ t ∈ ts, holds t) := by
  intro ts
  induction ts with
  | nil => intro r' h _; exact ⟨h, by simp [anyOf]⟩
  | cons a ts ih =>
    intro r' h htest
    obtain ⟨h₁, hres⟩ := htest a List.mem_cons_self r' h
    rw [anyOf]
    simp only [List.exists_mem_cons_iff]
    rcases ha : test a r' with ⟨_ | _, r₁⟩ <;> rw [ha] at h₁ hres
    · obtain ⟨h₂, hrest⟩ := ih r₁ h₁ fun t ht => htest t (List.mem_cons_of_mem _ ht)
      refine ⟨h₂, hrest.trans ⟨Or.inr, fun hor => hor.resolve_left fun hh => ?_⟩⟩
      exact absurd (hres.mpr hh) (by simp)
    · exact ⟨h₁, fun _ => Or.inl (hres.mp rfl), fun _ => rfl⟩

/-- **The occurs check is right.**  It only shortens chains, and with depth enough for the resolved
type it succeeds exactly if the variable occurs there. -/
theorem occurs_spec (id : Nat) : ∀ (depth : Nat) (t : Ty) (r : Run), r.subst.Acyclic →
    r.subst[id]? = none → (r.subst.apply t).height < depth →
    Compressed r (r.occurs id depth t).2 ∧
      ((r.occurs id depth t).1 = true ↔ id ∈ (r.subst.apply t).ids) := by
  intro depth
  induction depth with
  | zero => intro t r _ _ h; exact absurd h (by omega)
  | succ depth ih =>
    intro t r hs hid hh
    have hc := find_compressed hs t
    have happly : r.subst.apply (r.find t).1 = r.subst.apply t := hs.apply_root t
    have hroot : ∀ v, (r.find t).1 = .var v → r.subst[v.id]? = none :=
      fun v hv => hs.unbound_of_root hv
    rw [occurs, ← happly]
    rw [← happly] at hh
    rcases hfind : r.find t with ⟨v | ⟨name, args⟩, r₁⟩ <;> rw [hfind] at hc hh hroot
    -- at the end of the chain there is an unbound variable, which is the only one in the resolved
    -- type
    · refine ⟨hc, ?_⟩
      simp only [Subst.apply_var_of_unbound (hroot v rfl), Ty.ids_var, List.mem_singleton,
        decide_eq_true_eq]
      exact eq_comm
    · simp only [Subst.apply_con, Ty.ids_con, List.mem_flatMap, List.mem_map,
        exists_exists_and_eq_and] at hh ⊢
      refine anyOf_spec args r₁ hc fun a ha r' h => ?_
      -- arguments of a resolved type are less high than the whole
      have hle := Term.height_le_heightList (List.mem_map_of_mem (f := r.subst.apply) ha)
      rw [Term.height_con] at hh
      -- chains were shortened on the way here, so the argument is looked up under other bindings,
      -- which resolve it alike
      obtain ⟨h', hres⟩ := ih a r' h.acyclic ((h.unbound_iff id).mpr hid)
        (by rw [h.apply_eq]; omega)
      rw [h.apply_eq] at hres
      exact ⟨h.trans h', hres⟩

end Run

end LetTyping
