import LetTyping.Proofs.MostGeneral

/-!
# Why unification fails

The bindings of a substitution and an equation between two types force other equations: those that
follow by the laws of equality and because equal constructors have equal arguments.  Unification
only works with equations that are forced.  So when it fails it has met a clash that was forced, two
constructors that differ or a variable inside the term it would have to be equal to; it is never a
consequence of the bound on the recursion or of a choice made on the way.

A failure leaves nothing behind.  The bindings made before the clash and the chains shortened during
the search are all taken back, and a mismatch is reported with the two whole types as they were
resolved before.

## Main definitions

* `Forced` — the equations that follow from bindings and one more equation.
* `Clash.Genuine` — a clash comes from a forced equation.
* `Explained` — what a result of unification has to say about forced equations.

## Main results

* `Run.unifyWithin_explained` — every binding is forced, and so is every clash.
* `unify_failure_restores` — **a failed unification leaves the substitution as it was.**
-/

namespace LetTyping

/-- The equations that follow from the bindings of `s` and the equation between `a` and `b`. -/
inductive Forced (s : Subst) (a b : Ty) : Ty → Ty → Prop
  | given : Forced s a b a b
  | binding {v : TVar} {t : Ty} : s[v.id]? = some t → Forced s a b (.var v) t
  /-- Types that differ in tags only are equal. -/
  | same {x y : Ty} : x.same y → Forced s a b x y
  | symm {x y : Ty} : Forced s a b x y → Forced s a b y x
  | trans {x y z : Ty} : Forced s a b x y → Forced s a b y z → Forced s a b x z
  /-- Equal arguments make equal types. -/
  | con {name : String} {ss ts : List Ty} : List.Forall₂ (Forced s a b) ss ts →
      Forced s a b (.con name ss) (.con name ts)
  /-- Equal types have equal arguments. -/
  | arg {name : String} {ss ts : List Ty} {x y : Ty} : Forced s a b (.con name ss) (.con name ts) →
      ss.length = ts.length → (x, y) ∈ ss.zip ts → Forced s a b x y

/-- The clash comes from a forced equation: between constructors that differ in name or in the
number of arguments, or between a variable and a compound type that it occurs in. -/
def Clash.Genuine (s : Subst) (a b : Ty) : Clash → Prop
  | mismatch => ∃ m ss n ts, Forced s a b (.con m ss) (.con n ts) ∧ ¬(m = n ∧ ss.length = ts.length)
  | infinite v t => Forced s a b (.var v) t ∧ v.id ∈ t.ids ∧ ∀ w, t ≠ .var w

variable {s s' : Subst} {a b : Ty}

theorem Forced.refl (t : Ty) : Forced s a b t t := .same (Ty.same_iff.mpr rfl)

/-! ### Bindings that are forced -/

/-- Every type has to be equal to what `s'` resolves it to. -/
def Subst.Justified (s' s : Subst) (a b : Ty) : Prop := ∀ t, Forced s a b t (s'.apply t)

namespace Subst.Justified

/-- The bindings of an acyclic substitution are justified if each of them is forced. -/
theorem of_bindings (hs' : s'.Acyclic)
    (h : ∀ v t, s'[v.id]? = some t → Forced s a b (.var v) t) : s'.Justified s a b := by
  intro t
  induction t using hs'.induction with
  | unbound v hv =>
    rw [apply_var_of_unbound hv]
    exact .refl _
  | bound v t hv ih =>
    rw [hs'.apply_var_of_bound hv]
    exact .trans (h v t hv) ih
  | con name args ih =>
    rw [apply_con]
    refine .con ?_
    rw [List.forall₂_map_right_iff]
    exact List.forall₂_same.mpr ih

theorem binding (h : s'.Justified s a b) (hs' : s'.Acyclic) {v : TVar} {t : Ty}
    (hv : s'[v.id]? = some t) : Forced s a b (.var v) t := by
  have hvar := h (.var v)
  rw [hs'.apply_var_of_bound hv] at hvar
  exact .trans hvar (.symm (h t))

/-- A type has to be equal to the term it stands for. -/
theorem root (h : s'.Justified s a b) (hs' : s'.Acyclic) (t : Ty) : Forced s a b t (s'.root t) := by
  have hroot := h (s'.root t)
  rw [hs'.apply_root] at hroot
  exact .trans (h t) (.symm hroot)

/-- Shortening chains changes nothing that types are resolved to. -/
theorem compressed {r r' : Run} (h : r.subst.Justified s a b) (hc : r.Compressed r') :
    r'.subst.Justified s a b := by
  intro t
  rw [hc.apply_eq]
  exact h t

/-- A new binding that is forced is justified. -/
theorem insert (h : s'.Justified s a b) (hs' : s'.Acyclic) {n : Nat} {t : Ty}
    (hins : Acyclic (Std.ExtTreeMap.insert s' n t))
    (hn : ∀ v : TVar, v.id = n → Forced s a b (.var v) t) :
    Justified (Std.ExtTreeMap.insert s' n t) s a b := by
  refine of_bindings hins fun v u hv => ?_
  rw [Std.ExtTreeMap.getElem?_insert] at hv
  split at hv
  · next heq =>
    rw [Nat.compare_eq_eq] at heq
    rw [← Option.some.inj hv]
    exact hn v heq.symm
  · exact h.binding hs' hv

end Subst.Justified

/-! ### Every level of the recursion -/

/-- What a result of unification has to say about forced equations: on success the new bindings are
justified, and on failure the clash is genuine. -/
def Explained (s : Subst) (a b : Ty) (result : Except Clash Unit) (s' : Subst) : Prop :=
  match result with
  | .ok _ => s'.Justified s a b
  | .error clash => clash.Genuine s a b

namespace Run

variable {U : List Ty} {depth : Nat}

theorem bindVar_explained {r : Run} (hs : r.subst.Acyclic) {v : TVar} {t : Ty}
    (hv : r.subst[v.id]? = none) (ht : ∀ w, r.subst.apply t = .var w → w.id ≠ v.id)
    (hh : (r.subst.apply t).height < depth) (hj : r.subst.Justified s a b)
    (hforced : Forced s a b (.var v) t) :
    Explained s a b (r.bindVar depth v t).1 (r.bindVar depth v t).2.subst := by
  obtain ⟨hc, hocc⟩ := occurs_spec v.id depth t r hs hv hh
  rw [bindVar]
  rcases hres : r.occurs v.id depth t with ⟨_ | _, r₁⟩ <;> rw [hres] at hc hocc
  · have hnot : v.id ∉ (r.subst.apply t).ids := fun h => absurd (hocc.mpr h) (by simp)
    refine (hj.compressed hc).insert hc.acyclic
      (hc.acyclic.insert ((hc.unbound_iff v.id).mpr hv) (by rwa [hc.apply_eq])) fun w hw => ?_
    -- the variable may come with another tag
    refine .trans (.same (Ty.same_iff.mpr ?_)) hforced
    simp [Ty.untagged, hw]
  · have hmem := hocc.mp rfl
    refine ⟨.trans hforced (hj.compressed hc t), ?_, fun w hw => ?_⟩
    · rw [hc.apply_eq]
      exact hmem
    · rw [hc.apply_eq] at hw
      rw [hw, Ty.ids_var, List.mem_singleton] at hmem
      exact ht w hw hmem.symm

/-- If unifying two types is explained, then so is unifying types pairwise. -/
theorem unifyAll_explained
    (ih : ∀ (x y : Ty) (r : Run), Ready U depth r.subst x y → r.subst.Justified s a b →
      Forced s a b x y →
      Explained s a b (unifyWithin depth x y r).1 (unifyWithin depth x y r).2.subst) :
    ∀ (xs ys : List Ty) (r : Run), ReadyAll U depth r.subst xs ys → r.subst.Justified s a b →
      (∀ x y, (x, y) ∈ xs.zip ys → Forced s a b x y) →
      Explained s a b (unifyAll (unifyWithin depth) xs ys r).1
        (unifyAll (unifyWithin depth) xs ys r).2.subst := by
  intro xs
  induction xs with
  | nil => intro ys r _ hj _; exact hj
  | cons x xs ihs =>
    intro ys r h hj hforced
    cases ys with
    | nil => exact hj
    | cons y ys =>
      -- the first pair is forced like the others, and the tails are ready once it is unified
      have hhead := ih x y r h.head hj (hforced x y List.mem_cons_self)
      have htail := h.tail_of_ok
      rw [unifyAll]
      rcases hres : unifyWithin depth x y r with ⟨_ | _, r₁⟩ <;> rw [hres] at hhead htail
      · exact hhead
      · exact ihs ys r₁ (htail rfl) hhead fun x' y' hxy =>
          hforced x' y' (List.mem_cons_of_mem _ hxy)

/-- If unification is explained one level below, then it is for two terms that stand for
themselves. -/
theorem meet_explained
    (ih : ∀ (x y : Ty) (r : Run), Ready U depth r.subst x y → r.subst.Justified s a b →
      Forced s a b x y →
      Explained s a b (unifyWithin depth x y r).1 (unifyWithin depth x y r).2.subst)
    {x y : Ty} {r : Run} (h : Ready U (depth + 1) r.subst x y) (hj : r.subst.Justified s a b)
    (hforced : Forced s a b x y) (hx : ∀ v, x = .var v → r.subst[v.id]? = none)
    (hy : ∀ v, y = .var v → r.subst[v.id]? = none) :
    Explained s a b (meet depth x y r).1 (meet depth x y r).2.subst := by
  have hs := h.acyclic
  have hxh := h.leftWithin.height_lt hs h.built
  have hyh := h.rightWithin.height_lt hs h.built
  -- a variable is bound or occurs in the other type; only two different constructors clash
  cases x with
  | var v =>
    cases y with
    | var w =>
      rw [meet]
      by_cases hvw : v.id = w.id
      · rw [if_pos hvw]
        exact hj
      · rw [if_neg hvw]
        refine bindVar_explained hs (hy w rfl) (fun z hz => ?_) hxh hj (.symm hforced)
        rw [Subst.apply_var_of_unbound (hx v rfl), Term.var.injEq] at hz
        exact hz ▸ hvw
    | con n ts =>
      exact bindVar_explained hs (hx v rfl) (fun z hz => by simp at hz) hyh hj hforced
  | con m ss =>
    cases y with
    | var w =>
      exact bindVar_explained hs (hy w rfl) (fun z hz => by simp at hz) hxh hj (.symm hforced)
    | con n ts =>
      rw [meet]
      by_cases hmn : m = n ∧ ss.length = ts.length
      · rw [if_pos hmn]
        obtain ⟨rfl, hlen⟩ := hmn
        -- arguments of types that are forced to be equal are forced to be equal
        exact unifyAll_explained ih ss ts r h.args hj fun _ _ hxy => .arg hforced hlen hxy
      · rw [if_neg hmn]
        exact ⟨m, ss, n, ts, hforced, hmn⟩

/-- **Every binding that unification makes is forced, and so is every clash it meets.** -/
theorem unifyWithin_explained : ∀ (depth : Nat) (x y : Ty) (r : Run), Ready U depth r.subst x y →
    r.subst.Justified s a b → Forced s a b x y →
    Explained s a b (unifyWithin depth x y r).1 (unifyWithin depth x y r).2.subst := by
  intro depth
  induction depth with
  | zero =>
    -- the bound is never reached
    intro x y r h
    exact absurd (h.leftWithin.height_lt h.acyclic h.built) (by omega)
  | succ depth ih =>
    intro x y r h hj hforced
    have hc₁ := find_compressed h.acyclic x
    have hc₂ := find_compressed hc₁.acyclic y
    have hj₁ := hj.compressed hc₁
    have hroots : Forced s a b (r.find x).1 ((r.find x).2.find y).1 :=
      .trans (.symm (hj.root h.acyclic x)) (.trans hforced (hj₁.root hc₁.acyclic y))
    obtain ⟨hready, -, -⟩ := h.find
    rw [unifyWithin_succ]
    exact meet_explained ih hready (hj₁.compressed hc₂) hroots
      (fun v hv => ((hc₁.trans hc₂).unbound_iff v.id).mpr (h.acyclic.unbound_of_root hv))
      (fun v hv => (hc₂.unbound_iff v.id).mpr (hc₁.acyclic.unbound_of_root hv))

end Run

/-! ### The whole of unification -/

/-- A failure comes from a genuine clash, which is reported under the substitution from before. -/
theorem unify_error_genuine (hs : s.Acyclic) {cause : TypeCause}
    (h : (unify s a b).1 = .error cause) :
    ∃ clash : Clash, clash.Genuine s a b ∧ cause = clash.cause s a b := by
  have hexpl := Run.unifyWithin_explained _ a b ⟨s, []⟩ (ready_parts hs a b)
    (.of_bindings hs fun _ _ hv => .binding hv) .given
  have hundo := Run.undo_unifyWithin (s.constructors + a.constructors + b.constructors + 1) a b s
  rw [unify] at h
  rcases hrun : Run.unifyWithin _ a b ⟨s, []⟩ with ⟨clash | _, r⟩ <;> rw [hrun] at h hexpl hundo
  · refine ⟨clash, hexpl, ?_⟩
    rw [← Except.error.inj h, hundo]
  · exact absurd h (by simp)

/-- **A failed unification leaves the substitution as it was**, entry by entry.  Either two
constructors would have to be equal that differ, and the problem shows the two whole types as they
were resolved before, with one naming for both; or a variable would have to be equal to a type that
it occurs in. -/
theorem unify_failure_restores (hs : s.Acyclic) (a b : Ty) {cause : TypeCause}
    (h : (unify s a b).1 = .error cause) :
    (∀ n : Nat, (unify s a b).2[n]? = s[n]?) ∧
      ((∃ expected found, cause = .mismatch expected found none ∧
          (expected, found) = Ty.texts (s.apply a) (s.apply b) ∧ Clash.mismatch.Genuine s a b) ∨
        ∃ v t var ty, cause = .infinite var ty none ∧ (var, ty) = Ty.texts (.var v) t ∧
          (Clash.infinite v t).Genuine s a b) := by
  obtain ⟨clash, hgenuine, rfl⟩ := unify_error_genuine hs h
  refine ⟨fun n => by rw [unify_error h], ?_⟩
  cases clash with
  | mismatch => exact Or.inl ⟨_, _, rfl, rfl, hgenuine⟩
  | infinite v t => exact Or.inr ⟨v, t, _, _, rfl, rfl, hgenuine⟩

/-- A failure after a chain was shortened and two variables were bound. -/
theorem unify_failure_restores_chain :
    let s := Subst.ofList [(3, .var ⟨2, none⟩), (2, .var ⟨1, none⟩), (1, .var ⟨0, none⟩)]
    let a := Ty.product [.var ⟨3, none⟩, .var ⟨4, none⟩, .int]
    let b := Ty.product [.var ⟨5, none⟩, .int, .unit]
    s.Acyclic ∧ (unify s a b).1 = .error (.mismatch "(a, b, Int)" "(c, Int, Unit)" none) ∧
      ∀ n : Nat, (unify s a b).2[n]? = s[n]? := by
  intro s a b
  have hs : s.Acyclic := Subst.acyclic_ofList (by decide)
  have herror : (unify s a b).1 = .error (.mismatch "(a, b, Int)" "(c, Int, Unit)" none) := by
    decide +kernel
  exact ⟨hs, herror, (unify_failure_restores hs a b herror).1⟩

end LetTyping
