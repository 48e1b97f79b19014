import LetTyping.Proofs.MostGeneral
import LetTyping.Proofs.Renaming

/-!
# Unification under a renaming

Unification does the same to two substitutions that have the same bindings up to a renaming: it
binds the same variables to the same types, and when it fails, then for the same reason.  The
substitutions may differ in all other bindings.  The depth that unification starts with depends on
those, but it is always enough, so that nothing depends on it.

## Main definitions

* `Subst.Mirrors` — a substitution has the bindings of another for the renamed variables.
* `Run.Mirrored` — two results of unification are equal up to the renaming.
* `Run.MirrorsWithin` — unification down to given depths does the same to renamed types.

## Main results

* `Subst.Mirrors.apply_rename` — types are resolved alike.
* `Run.unifyWithin_mirrors` — unification does the same on every level of the recursion.
* `unify_mirrors` — **unification does the same to renamed types**, and fails with the same texts.
-/

namespace LetTyping

variable {K : Nat → Prop} {f : Nat → Nat}

/-- The substitution `s'` has the bindings that `s` has for the variables in `K`, up to renaming. -/
structure Subst.Mirrors (K : Nat → Prop) (f : Nat → Nat) (s s' : Subst) : Prop where
  closed : s.ClosedOn K
  injOn : Set.InjOn f {n | K n}
  binding : ∀ n : Nat, K n → s'[f n]? = (s[n]?).map (Ty.rename f)

namespace Subst.Mirrors

variable {s s' : Subst}

theorem unbound (h : Mirrors K f s s') {n : Nat} (hn : K n) (hs : s[n]? = none) :
    s'[f n]? = none := by
  rw [h.binding n hn, hs, Option.map_none]

theorem bound (h : Mirrors K f s s') {n : Nat} (hn : K n) {t : Ty} (hs : s[n]? = some t) :
    s'[f n]? = some (t.rename f) := by
  rw [h.binding n hn, hs, Option.map_some]

/-- Types are resolved alike. -/
theorem apply_rename (h : Mirrors K f s s') (hs : s.Acyclic) (hs' : s'.Acyclic) {t : Ty}
    (ht : Over K t) : s'.apply (t.rename f) = (s.apply t).rename f := by
  induction t using hs.induction with
  | unbound v hv =>
    have hK : K v.id := ht v.id (by simp)
    rw [Subst.apply_var_of_unbound hv, Ty.rename_var, Subst.apply_var_of_unbound (h.unbound hK hv)]
  | bound v u hv ih =>
    have hK : K v.id := ht v.id (by simp)
    rw [hs.apply_var_of_bound hv, Ty.rename_var, hs'.apply_var_of_bound (h.bound hK hv),
      ih (h.closed v.id u hK hv)]
  | con name args ih =>
    rw [Subst.apply_con, Ty.rename_con, Subst.apply_con, Ty.rename_con, List.map_map, List.map_map]
    refine congrArg _ (List.map_congr_left fun a ha => ih a ha ?_)
    exact over_con.mp ht a ha

theorem height_apply (h : Mirrors K f s s') (hs : s.Acyclic) (hs' : s'.Acyclic) {t : Ty}
    (ht : Over K t) : (s'.apply (t.rename f)).height = (s.apply t).height := by
  rw [h.apply_rename hs hs' ht, Ty.rename, Term.height_map]

/-- The ways to the terms that types stand for are alike, and so are the terms. -/
theorem root_rename (h : Mirrors K f s s') (hs : s.Acyclic) (hs' : s'.Acyclic) {t : Ty}
    (ht : Over K t) :
    s'.root (t.rename f) = (s.root t).rename f ∧ s'.path (t.rename f) = (s.path t).map f := by
  -- along the bindings of one side, which the other side has too
  induction t using hs.induction with
  | unbound v hv =>
    have hv' : s'[(v.rename f).id]? = none := h.unbound (ht v.id (by simp)) hv
    rw [Ty.rename_var, root_of_unbound hv, path_of_unbound hv, root_of_unbound hv',
      path_of_unbound hv']
    exact ⟨rfl, rfl⟩
  | bound v u hv ih =>
    have hK : K v.id := ht v.id (by simp)
    -- the other variable is bound to the renamed type, which is over the set again
    have hv' : s'[(v.rename f).id]? = some (u.rename f) := h.bound hK hv
    obtain ⟨hroot, hpath⟩ := ih (h.closed v.id u hK hv)
    rw [Ty.rename_var, hs.root_of_bound hv, hs.path_of_bound hv, hs'.root_of_bound hv',
      hs'.path_of_bound hv', hroot, hpath]
    exact ⟨rfl, rfl⟩
  | con name args => exact ⟨by rw [root_con, Ty.rename_con, root_con], by simp⟩

end Subst.Mirrors

namespace Run

/-! ### Searching -/

theorem write_mirrors {r r' : Run} (h : r.subst.Mirrors K f r'.subst) {id : Nat} (hid : K id)
    {u : Ty} (hu : Over K u) :
    (r.write id u).subst.Mirrors K f (r'.write (f id) (u.rename f)).subst where
  closed := fun n t hn hb => by
    rw [getElem?_write] at hb
    split at hb
    · obtain rfl := Option.some.inj hb
      exact hu
    · exact h.closed n t hn hb
  injOn := h.injOn
  binding := fun n hn => by
    have hiff : f id = f n ↔ id = n := h.injOn.eq_iff hid hn
    rw [getElem?_write, getElem?_write, h.binding n hn]
    simp only [hiff]
    split <;> rfl

theorem foldl_write_mirrors {u : Ty} (hu : Over K u) :
    ∀ (ids : List Nat) (r r' : Run), r.subst.Mirrors K f r'.subst → (∀ id ∈ ids, K id) →
      (ids.foldl (fun r id => r.write id u) r).subst.Mirrors K f
        ((ids.map f).foldl (fun r id => r.write id (u.rename f)) r').subst := by
  intro ids
  induction ids with
  | nil => exact fun r r' h _ => h
  | cons id ids ih =>
    intro r r' h hids
    rw [List.forall_mem_cons] at hids
    exact ih _ _ (write_mirrors h hids.1 hu) hids.2

/-- Searching finds the same term and binds the same variables to it. -/
theorem find_mirrors {r r' : Run} (h : r.subst.Mirrors K f r'.subst) (hs : r.subst.Acyclic)
    (hs' : r'.subst.Acyclic) {t : Ty} (ht : Over K t) :
    Over K (r.find t).1 ∧ (r'.find (t.rename f)).1 = (r.find t).1.rename f ∧
      (r.find t).2.subst.Mirrors K f (r'.find (t.rename f)).2.subst := by
  obtain ⟨hroot, hpath⟩ := h.root_rename hs hs' ht
  obtain ⟨hlast, hids⟩ := chase_spec (hereditary_ids K) h.closed r.subst.size t ht
  refine ⟨hlast, hroot, ?_⟩
  rw [find_eq, find_eq, hroot, hpath, ← List.map_dropLast]
  exact foldl_write_mirrors hlast _ r r' h fun id hid => hids id (List.dropLast_subset _ hid)

/-- Tests that do the same one by one do the same together. -/
theorem anyOf_mirrors (Good : Run → Run → Prop)
    {test test' : Ty → Run → Bool × Run} :
    ∀ (ts : List Ty) (r r' : Run), Good r r' →
      (∀ t ∈ ts, ∀ r r', Good r r' →
        (test' (t.rename f) r').1 = (test t r).1 ∧ Good (test t r).2 (test' (t.rename f) r').2) →
      (anyOf test' (ts.map (Ty.rename f)) r').1 = (anyOf test ts r).1 ∧
        Good (anyOf test ts r).2 (anyOf test' (ts.map (Ty.rename f)) r').2 := by
  intro ts
  induction ts with
  | nil => exact fun r r' h _ => ⟨rfl, h⟩
  | cons t ts ih =>
    intro r r' h htest
    rw [List.forall_mem_cons] at htest
    obtain ⟨hres, hgood⟩ := htest.1 r r' h
    rw [List.map_cons, anyOf, anyOf]
    -- the tests have the same outcome, so they stop at the same type
    rcases ht : test t r with ⟨_ | _, r₁⟩ <;>
      rcases ht' : test' (t.rename f) r' with ⟨_ | _, r₁'⟩ <;> rw [ht, ht'] at hres hgood
    · exact ih r₁ r₁' hgood htest.2
    · exact absurd hres (by simp)
    · exact absurd hres (by simp)
    · exact ⟨rfl, hgood⟩

/-- The occurs check gives the same answer and shortens the same chains, whatever the depths are,
as long as they are enough. -/
theorem occurs_mirrors {id : Nat} (hid : K id) :
    ∀ (depth depth' : Nat) (t : Ty) (r r' : Run), r.subst.Mirrors K f r'.subst →
      r.subst.Acyclic → r'.subst.Acyclic → r.subst[id]? = none → Over K t →
      (r.subst.apply t).height < depth → (r.subst.apply t).height < depth' →
      (r'.occurs (f id) depth' (t.rename f)).1 = (r.occurs id depth t).1 ∧
        (r.occurs id depth t).2.subst.Mirrors K f
          (r'.occurs (f id) depth' (t.rename f)).2.subst := by
  intro depth
  induction depth with
  | zero => exact fun _ _ _ _ _ _ _ _ _ h => absurd h (by omega)
  | succ depth ih =>
    intro depth' t r r' h hs hs' hb ht hh hh'
    -- the depths may differ, but both are positive
    obtain ⟨depth', rfl⟩ : ∃ d, depth' = d + 1 := ⟨depth' - 1, by omega⟩
    obtain ⟨hK, hroot, hm⟩ := find_mirrors h hs hs' ht
    have hc := find_compressed hs t
    have hc' := find_compressed hs' (t.rename f)
    have happly : r.subst.apply (r.find t).1 = r.subst.apply t := hs.apply_root t
    rw [occurs, occurs]
    rw [← happly] at hh hh'
    rcases hfind : r.find t with ⟨v | ⟨name, args⟩, r₁⟩ <;>
      rcases hfind' : r'.find (t.rename f) with ⟨u, r₁'⟩ <;>
      rw [hfind, hfind'] at hroot hm <;> rw [hfind] at hK hc hh hh' <;> rw [hfind'] at hc' <;>
      simp only at hroot <;> subst hroot
    -- two variables are equal on one side exactly if they are on the other
    · refine ⟨?_, hm⟩
      simp only [Ty.rename_var, TVar.rename]
      exact decide_eq_decide.mpr (h.injOn.eq_iff (hK v.id (by simp)) hid)
    · rw [Ty.rename_con]
      simp only [Subst.apply_con, Term.height_con] at hh hh' ⊢
      have hargs := over_con.mp hK
      -- between two arguments chains are shortened on both sides; this keeps mirrors and resolves
      -- types as before, so the depths are still enough
      obtain ⟨hres, hgood⟩ := anyOf_mirrors (fun r₂ r₂' => r₂.subst.Mirrors K f r₂'.subst ∧
        Compressed r r₂ ∧ Compressed r' r₂') args r₁ r₁' ⟨hm, hc, hc'⟩ fun a ha r₂ r₂' h₂ => by
          obtain ⟨hm₂, hc₂, hc₂'⟩ := h₂
          have hle := Term.height_le_heightList (List.mem_map_of_mem (f := r.subst.apply) ha)
          have hh₂ : (r₂.subst.apply a).height < depth ∧ (r₂.subst.apply a).height < depth' := by
            rw [hc₂.apply_eq]
            omega
          have hb₂ := (hc₂.unbound_iff id).mpr hb
          obtain ⟨hres, hm₃⟩ := ih depth' a r₂ r₂' hm₂ hc₂.acyclic hc₂'.acyclic hb₂ (hargs a ha)
            hh₂.1 hh₂.2
          refine ⟨hres, hm₃, hc₂.trans (occurs_spec id depth a r₂ hc₂.acyclic hb₂ hh₂.1).1,
            hc₂'.trans (occurs_spec (f id) depth' _ r₂' hc₂'.acyclic (hm₂.unbound hid hb₂) ?_).1⟩
          rw [hm₂.height_apply hc₂.acyclic hc₂'.acyclic (hargs a ha)]
          exact hh₂.2
      exact ⟨hres, hgood.1⟩

end Run

/-! ### Unifying -/

/-- The clash between renamed types. -/
def Clash.rename (f : Nat → Nat) : Clash → Clash
  | mismatch => mismatch
  | infinite v t => infinite (v.rename f) (t.rename f)

/-- The variables that a clash shows are in `K`. -/
def Clash.ShowsOnly (K : Nat → Prop) : Clash → Prop
  | mismatch => True
  | infinite v t => K v.id ∧ Over K t

namespace Run

/-- The second result is that of unifying renamed types. -/
structure Mirrored (K : Nat → Prop) (f : Nat → Nat) (x x' : Except Clash Unit × Run) : Prop where
  result : x'.1 = x.1.mapError (Clash.rename f)
  shows : ∀ clash, x.1 = .error clash → clash.ShowsOnly K
  mirrors : x.2.subst.Mirrors K f x'.2.subst

variable {U U' : List Ty} {depth depth' : Nat} {r r' : Run}

theorem Mirrored.ok (h : r.subst.Mirrors K f r'.subst) : Mirrored K f (.ok (), r) (.ok (), r') :=
  ⟨rfl, fun _ hclash => by simp at hclash, h⟩

/-- Unification down to given depths does the same to renamed types. -/
def MirrorsWithin (K : Nat → Prop) (f : Nat → Nat) (U U' : List Ty) (depth depth' : Nat) : Prop :=
  ∀ (a b : Ty) (r r' : Run), r.subst.Mirrors K f r'.subst → Ready U depth r.subst a b →
    Ready U' depth' r'.subst (a.rename f) (b.rename f) → Over K a → Over K b →
    Mirrored K f (unifyWithin depth a b r) (unifyWithin depth' (a.rename f) (b.rename f) r')

theorem bindVar_mirrors (h : r.subst.Mirrors K f r'.subst) (hs : r.subst.Acyclic)
    (hs' : r'.subst.Acyclic) {v : TVar} {t : Ty} (hv : r.subst[v.id]? = none) (hK : K v.id)
    (ht : Over K t) (hh : (r.subst.apply t).height < depth)
    (hh' : (r.subst.apply t).height < depth') :
    Mirrored K f (r.bindVar depth v t) (r'.bindVar depth' (v.rename f) (t.rename f)) := by
  obtain ⟨hres, hm⟩ := occurs_mirrors hK depth depth' t r r' h hs hs' hv ht hh hh'
  have hc := (occurs_spec v.id depth t r hs hv hh).1
  have hc' := (occurs_spec (f v.id) depth' (t.rename f) r' hs' (h.unbound hK hv) (by
    rwa [h.height_apply hs hs' ht])).1
  rw [bindVar, bindVar]
  -- the variable occurs on both sides or on neither
  rcases ho : r.occurs v.id depth t with ⟨_ | _, r₁⟩ <;>
    rcases ho' : r'.occurs (v.rename f).id depth' (t.rename f) with ⟨_ | _, r₁'⟩ <;>
    simp only [TVar.rename] at ho' <;> rw [ho, ho'] at hres hm <;> rw [ho] at hc <;>
    rw [ho'] at hc'
  · exact .ok (write_mirrors hm hK ht)
  · exact absurd hres (by simp)
  · exact absurd hres (by simp)
  -- the type in the message is resolved after chains were shortened, which does not show
  · have happly := hm.apply_rename hc.acyclic hc'.acyclic ht
    refine ⟨?_, ?_, hm⟩
    · simp only [happly]
      rfl
    · rintro _ ⟨⟩
      exact ⟨hK, hc.acyclic.ids_apply_subset hm.closed ht⟩

/-- If unifying two types does the same, then so does unifying types pairwise. -/
theorem unifyAll_mirrors (ih : MirrorsWithin K f U U' depth depth') :
    ∀ (as bs : List Ty) (r r' : Run), r.subst.Mirrors K f r'.subst →
      ReadyAll U depth r.subst as bs →
      ReadyAll U' depth' r'.subst (as.map (Ty.rename f)) (bs.map (Ty.rename f)) →
      (∀ a ∈ as, Over K a) → (∀ b ∈ bs, Over K b) →
      Mirrored K f (unifyAll (unifyWithin depth) as bs r)
        (unifyAll (unifyWithin depth') (as.map (Ty.rename f)) (bs.map (Ty.rename f)) r') := by
  intro as
  induction as with
  | nil => exact fun bs r r' h _ _ _ _ => .ok h
  | cons a as ihs =>
    intro bs r r' h hr hr' has hbs
    cases bs with
    | nil => exact .ok h
    | cons b bs =>
      rw [List.forall_mem_cons] at has hbs
      obtain ⟨hres, hover, hm⟩ := ih a b r r' h hr.head hr'.head has.1 hbs.1
      have ht := hr.tail_of_ok
      have ht' := hr'.tail_of_ok
      rw [List.map_cons, List.map_cons, unifyAll, unifyAll]
      -- both fail at the first pair or both go on
      rcases hu : unifyWithin depth a b r with ⟨clash | _, r₁⟩ <;>
        rcases hu' : unifyWithin depth' (a.rename f) (b.rename f) r' with ⟨clash' | _, r₁'⟩ <;>
        rw [hu, hu'] at hres hm <;> rw [hu] at hover ht <;> rw [hu'] at ht'
      · exact ⟨hres, hover, hm⟩
      · exact absurd hres (by simp [Except.mapError])
      · exact absurd hres (by simp [Except.mapError])
      · exact ihs bs r₁ r₁' hm (ht rfl) (ht' rfl) has.2 hbs.2

/-- If unification does the same one level below, then it does the same for two terms that stand
for themselves. -/
theorem meet_mirrors (ih : MirrorsWithin K f U U' depth depth') {a b : Ty}
    (h : r.subst.Mirrors K f r'.subst) (hr : Ready U (depth + 1) r.subst a b)
    (hr' : Ready U' (depth' + 1) r'.subst (a.rename f) (b.rename f))
    (ha : ∀ v, a = .var v → r.subst[v.id]? = none)
    (hb : ∀ v, b = .var v → r.subst[v.id]? = none) (haK : Over K a)
    (hbK : Over K b) :
    Mirrored K f (meet depth a b r) (meet depth' (a.rename f) (b.rename f) r') := by
  have hah := hr.leftWithin.height_lt hr.acyclic hr.built
  have hbh := hr.rightWithin.height_lt hr.acyclic hr.built
  have hah' := hr'.leftWithin.height_lt hr'.acyclic hr'.built
  have hbh' := hr'.rightWithin.height_lt hr'.acyclic hr'.built
  -- renaming does not change heights, so one bound serves both sides
  rw [h.height_apply hr.acyclic hr'.acyclic haK] at hah'
  rw [h.height_apply hr.acyclic hr'.acyclic hbK] at hbh'
  cases a with
  | var v =>
    have hv := haK v.id (by simp)
    cases b with
    | var w =>
      have hw := hbK w.id (by simp)
      -- the renaming is injective, so the variables are equal on both sides or on neither
      have hiff : (v.rename f).id = (w.rename f).id ↔ v.id = w.id := h.injOn.eq_iff hv hw
      rw [Ty.rename_var, Ty.rename_var, meet, meet]
      simp only [hiff]
      split
      · exact .ok h
      · exact bindVar_mirrors h hr.acyclic hr'.acyclic (hb w rfl) hw haK hah hah'
    | con n ts =>
      have hbind := bindVar_mirrors h hr.acyclic hr'.acyclic (ha v rfl) hv hbK hbh hbh'
      rw [Ty.rename_con] at hbind ⊢
      exact hbind
  | con m ss =>
    cases b with
    | var w =>
      have hbind := bindVar_mirrors h hr.acyclic hr'.acyclic (hb w rfl) (hbK w.id (by simp)) haK
        hah hah'
      rw [Ty.rename_con] at hbind ⊢
      exact hbind
    -- two terms: name and number of arguments decide, and the renaming changes neither
    | con n ts =>
      rw [Ty.rename_con, Ty.rename_con] at hr' ⊢
      rw [meet, meet]
      simp only [List.length_map]
      split
      · exact unifyAll_mirrors ih ss ts r r' h hr.args hr'.args (over_con.mp haK)
          (over_con.mp hbK)
      · exact ⟨rfl, fun clash h => by cases h; trivial, h⟩

/-- **Unification does the same on every level of the recursion**, whatever the depths are, as long
as they are enough. -/
theorem unifyWithin_mirrors : ∀ depth depth' : Nat, MirrorsWithin K f U U' depth depth' := by
  intro depth
  induction depth with
  | zero =>
    intro depth' a b r r' _ hr
    exact absurd (hr.leftWithin.height_lt hr.acyclic hr.built) (by omega)
  | succ depth ih =>
    intro depth' a b r r' h hr hr' ha hb
    have hpos := hr'.leftWithin.height_lt hr'.acyclic hr'.built
    obtain ⟨depth', rfl⟩ : ∃ d, depth' = d + 1 := ⟨depth' - 1, by omega⟩
    -- both runs search first, which shortens chains on both sides
    have hc := find_compressed hr.acyclic a
    have hc' := find_compressed hr'.acyclic (a.rename f)
    have hcb := find_compressed hc.acyclic b
    obtain ⟨haK, hroota, hma⟩ := find_mirrors h hr.acyclic hr'.acyclic ha
    obtain ⟨hbK, hrootb, hmb⟩ := find_mirrors hma hc.acyclic hc'.acyclic hb
    have hready' := hr'.find.1
    rw [unifyWithin_succ, unifyWithin_succ]
    rw [hroota, hrootb] at hready' ⊢
    exact meet_mirrors (ih depth') hmb hr.find.1 hready'
      (fun v hv => ((hc.trans hcb).unbound_iff v.id).mpr (hr.acyclic.unbound_of_root hv))
      (fun v hv => (hcb.unbound_iff v.id).mpr (hc.acyclic.unbound_of_root hv)) haK hbK

end Run

theorem Clash.cause_rename {s s' : Subst} (h : s.Mirrors K f s') (hs : s.Acyclic)
    (hs' : s'.Acyclic) {a b : Ty} (ha : Over K a) (hb : Over K b) {clash : Clash}
    (hclash : clash.ShowsOnly K) :
    (clash.rename f).cause s' (a.rename f) (b.rename f) = clash.cause s a b := by
  cases clash with
  | mismatch =>
    rw [rename, cause, cause, h.apply_rename hs hs' ha, h.apply_rename hs hs' hb,
      Ty.texts_rename h.injOn (hs.ids_apply_subset h.closed ha) (hs.ids_apply_subset h.closed hb)]
  | infinite v t =>
    have htexts : Ty.texts (.var (v.rename f)) (t.rename f) = Ty.texts (.var v) t :=
      Ty.texts_rename (a := .var v) h.injOn (by simpa using hclash.1) hclash.2
    rw [rename, cause, cause, htexts]

/-- **Unification does the same to renamed types**, under the same bindings up to the renaming.  If
it fails, then for the same cause, with the same texts. -/
theorem unify_mirrors {s s' : Subst} (h : s.Mirrors K f s') (hs : s.Acyclic) (hs' : s'.Acyclic)
    {a b : Ty} (ha : Over K a) (hb : Over K b) :
    (unify s' (a.rename f) (b.rename f)).1 = (unify s a b).1 ∧
      (unify s a b).2.Mirrors K f (unify s' (a.rename f) (b.rename f)).2 := by
  obtain ⟨hres, hover, hm⟩ := Run.unifyWithin_mirrors _ _ a b ⟨s, []⟩ ⟨s', []⟩ h
    (ready_parts hs a b) (ready_parts hs' (a.rename f) (b.rename f)) ha hb
  -- a failed run takes back what it has written, so the bindings at the end are the first ones
  have hundo := Run.undo_unifyWithin (s.constructors + a.constructors + b.constructors + 1) a b s
  have hundo' := Run.undo_unifyWithin
    (s'.constructors + (a.rename f).constructors + (b.rename f).constructors + 1)
    (a.rename f) (b.rename f) s'
  rw [unify, unify]
  rcases hu : Run.unifyWithin (s.constructors + a.constructors + b.constructors + 1) a b ⟨s, []⟩
    with ⟨clash | _, r⟩ <;>
  rcases hu' : Run.unifyWithin _ (a.rename f) (b.rename f) ⟨s', []⟩ with ⟨clash' | _, r'⟩ <;>
    rw [hu, hu'] at hres hm <;> rw [hu] at hover hundo <;> rw [hu'] at hundo'
  · obtain rfl := Except.error.inj hres
    simp only [hundo, hundo']
    exact ⟨congrArg _ (Clash.cause_rename h hs hs' ha hb (hover clash rfl)), h⟩
  · exact absurd hres (by simp [Except.mapError])
  · exact absurd hres (by simp [Except.mapError])
  · exact ⟨rfl, hm⟩

end LetTyping
