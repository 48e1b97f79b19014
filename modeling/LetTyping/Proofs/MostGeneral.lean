import LetTyping.Proofs.Depth

/-!
# Unification is most general

Unification adds equations to a substitution.  It succeeds exactly if the bindings and the new
equation have a solution together, and then the solutions of the new bindings are exactly these
common solutions; so nothing is assumed about a variable that the equation does not force.

## Main definitions

* `MostGeneral` — what a result of unification has to say about solutions.
* `Satisfies`, `Equates` — an assignment of types satisfies bindings, or makes two types equal.

## Main results

* `Run.unifyWithin_spec` — the result is right on every level of the recursion.
* `unify_spec` — the result is right, and the bindings stay acyclic.
* `unify_mostGeneral` — **unification finds most general solutions, or there are none.**
-/

namespace LetTyping

variable {U : List Ty} {depth : Nat}

/-- What a result of unifying under `s` has to say, where `holds θ` says that `θ` satisfies the
equations: on success the solutions of the new bindings are the common ones, and on failure there
are none. -/
def MostGeneral (s : Subst) (holds : (Nat → Term Nat) → Prop) {ε : Type} (result : Except ε Unit)
    (s' : Subst) : Prop :=
  match result with
  | .ok _ => ∀ θ, Solves θ s' ↔ Solves θ s ∧ holds θ
  | .error _ => ∀ θ, Solves θ s → ¬holds θ

/-- A result says the same about equations with the same solutions. -/
theorem MostGeneral.congr {s s₁ s' : Subst} {holds holds₁ : (Nat → Term Nat) → Prop} {ε : Type}
    {result : Except ε Unit} (h : MostGeneral s₁ holds₁ result s')
    (hsol : ∀ θ, Solves θ s₁ ↔ Solves θ s) (hholds : ∀ θ, Solves θ s → (holds₁ θ ↔ holds θ)) :
    MostGeneral s holds result s' := by
  cases result with
  | ok _ =>
    intro θ
    rw [h θ, hsol θ]
    exact and_congr_right fun hθ => hholds θ hθ
  | error _ => exact fun θ hθ hh => h θ ((hsol θ).mpr hθ) ((hholds θ hθ).mpr hh)

namespace Run

/-- Binding a variable is most general, unless the variable occurs in the type. -/
theorem bindVar_spec {r : Run} (hs : r.subst.Acyclic) {v : TVar} {t : Ty}
    (hv : r.subst[v.id]? = none) (ht : ∀ w, r.subst.apply t = .var w → w.id ≠ v.id)
    (hh : (r.subst.apply t).height < depth) :
    (r.bindVar depth v t).2.subst.Acyclic ∧
      MostGeneral r.subst (fun θ => θ v.id = t.eval θ) (r.bindVar depth v t).1
        (r.bindVar depth v t).2.subst := by
  obtain ⟨hc, hocc⟩ := occurs_spec v.id depth t r hs hv hh
  rw [bindVar]
  rcases hres : r.occurs v.id depth t with ⟨_ | _, r₁⟩ <;> rw [hres] at hc hocc
  -- the variable does not occur, so the bindings stay acyclic and have one equation more
  · have hnot : v.id ∉ (r.subst.apply t).ids := fun h => absurd (hocc.mpr h) (by simp)
    have hv₁ := (hc.unbound_iff v.id).mpr hv
    refine ⟨hc.acyclic.insert hv₁ (by rwa [hc.apply_eq]), fun θ => ?_⟩
    change Solves θ (r₁.subst.insert v.id t) ↔ _
    rw [Subst.solves_insert hv₁, Subst.solves_iff_of_apply hs hc.acyclic hc.apply_eq]
  · refine ⟨hc.acyclic, fun θ hθ heq => ?_⟩
    have hmem := hocc.mp rfl
    simp only at heq
    -- no types solve an equation of a variable with a larger type that has the variable in it
    rw [← hθ.eval_apply hs] at heq
    cases hr : r.subst.apply t with
    | var w =>
      rw [hr, Ty.ids_var, List.mem_singleton] at hmem
      exact ht w hr hmem.symm
    | con name args =>
      rw [hr] at hmem heq
      exact Ty.eval_ne_of_mem_ids θ hmem heq

/-- Everything that unification of two types down to `depth` relies on. -/
structure Ready (U : List Ty) (depth : Nat) (s : Subst) (a b : Ty) : Prop where
  acyclic : s.Acyclic
  built : s.BuiltFrom U
  left : a.BuiltFrom U
  right : b.BuiltFrom U
  leftWithin : Within U depth s a
  rightWithin : Within U depth s b

/-- Everything that unification of types pairwise down to `depth` relies on. -/
structure ReadyAll (U : List Ty) (depth : Nat) (s : Subst) (as bs : List Ty) : Prop where
  acyclic : s.Acyclic
  built : s.BuiltFrom U
  left : ∀ a ∈ as, a.BuiltFrom U ∧ Within U depth s a
  right : ∀ b ∈ bs, b.BuiltFrom U ∧ Within U depth s b

theorem Ready.args {s : Subst} {m n : String} {ss ts : List Ty}
    (h : Ready U (depth + 1) s (.con m ss) (.con n ts)) : ReadyAll U depth s ss ts where
  acyclic := h.acyclic
  built := h.built
  left := fun x hx => ⟨(hereditary_builtFrom U).args m ss h.left x hx, h.leftWithin.arg hx⟩
  right := fun x hx => ⟨(hereditary_builtFrom U).args n ts h.right x hx, h.rightWithin.arg hx⟩

theorem ReadyAll.head {s : Subst} {a b : Ty} {as bs : List Ty}
    (h : ReadyAll U depth s (a :: as) (b :: bs)) : Ready U depth s a b := by
  obtain ⟨haU, haW⟩ := h.left a List.mem_cons_self
  obtain ⟨hbU, hbW⟩ := h.right b List.mem_cons_self
  exact ⟨h.acyclic, h.built, haU, hbU, haW, hbW⟩

/-- The rest is unified under the bindings made so far. -/
theorem ReadyAll.tail {a b : Ty} {as bs : List Ty} {r : Run}
    (h : ReadyAll U depth r.subst (a :: as) (b :: bs))
    (hs : (unifyWithin depth a b r).2.subst.Acyclic)
    (hsub : ∀ θ, Solves θ (unifyWithin depth a b r).2.subst → Solves θ r.subst) :
    ReadyAll U depth (unifyWithin depth a b r).2.subst as bs where
  acyclic := hs
  built := (unifyWithin_writes (hereditary_builtFrom U) depth a b r h.head.left h.head.right
    h.built).bounded h.built
  left := fun x hx => (h.left x (List.mem_cons_of_mem _ hx)).imp_right fun h => h.mono hsub
  right := fun x hx => (h.right x (List.mem_cons_of_mem _ hx)).imp_right fun h => h.mono hsub

/-- If unifying two types is right, then so is unifying types pairwise. -/
theorem unifyAll_spec
    (ih : ∀ (a b : Ty) (r : Run), Ready U depth r.subst a b →
      (unifyWithin depth a b r).2.subst.Acyclic ∧
        MostGeneral r.subst (fun θ => a.eval θ = b.eval θ) (unifyWithin depth a b r).1
          (unifyWithin depth a b r).2.subst) :
    ∀ (as bs : List Ty) (r : Run), as.length = bs.length → ReadyAll U depth r.subst as bs →
      (unifyAll (unifyWithin depth) as bs r).2.subst.Acyclic ∧
        MostGeneral r.subst (fun θ => as.map (Ty.eval θ) = bs.map (Ty.eval θ))
          (unifyAll (unifyWithin depth) as bs r).1
          (unifyAll (unifyWithin depth) as bs r).2.subst := by
  intro as
  induction as with
  | nil =>
    intro bs r hlen h
    obtain rfl : bs = [] := List.length_eq_zero_iff.mp hlen.symm
    exact ⟨h.acyclic, fun θ => by simp [unifyAll]⟩
  | cons a as ihs =>
    intro bs r hlen h
    cases bs with
    | nil => exact absurd hlen (by simp)
    | cons b bs =>
      obtain ⟨hs₁, hspec⟩ := ih a b r h.head
      have htail := h.tail hs₁
      rw [unifyAll]
      rcases hres : unifyWithin depth a b r with ⟨_ | _, r₁⟩ <;> rw [hres] at hs₁ hspec htail
      -- what has no solution for the first pair has none for all pairs
      · refine ⟨hs₁, fun θ hθ heq => hspec θ hθ ?_⟩
        simp only [List.map_cons, List.cons.injEq] at heq
        exact heq.1
      -- the tails start from the solutions of the first pair
      · obtain ⟨hs₂, hrest⟩ := ihs bs r₁ (by simpa using hlen)
          (htail fun θ hθ => ((hspec θ).mp hθ).1)
        refine ⟨hs₂, ?_⟩
        simp only [List.map_cons, List.cons.injEq]
        cases hout : (unifyAll (unifyWithin depth) as bs r₁).1 with
        | error _ =>
          rw [hout] at hrest
          exact fun θ hθ heq => hrest θ ((hspec θ).mpr ⟨hθ, heq.1⟩) heq.2
        | ok _ =>
          rw [hout] at hrest
          intro θ
          rw [hrest θ, hspec θ, and_assoc]

/-- If unification is right one level below, then it is right for two terms that stand for
themselves. -/
theorem meet_spec
    (ih : ∀ (a b : Ty) (r : Run), Ready U depth r.subst a b →
      (unifyWithin depth a b r).2.subst.Acyclic ∧
        MostGeneral r.subst (fun θ => a.eval θ = b.eval θ) (unifyWithin depth a b r).1
          (unifyWithin depth a b r).2.subst)
    {a b : Ty} {r : Run} (h : Ready U (depth + 1) r.subst a b)
    (ha : ∀ v, a = .var v → r.subst[v.id]? = none)
    (hb : ∀ v, b = .var v → r.subst[v.id]? = none) :
    (meet depth a b r).2.subst.Acyclic ∧
      MostGeneral r.subst (fun θ => a.eval θ = b.eval θ) (meet depth a b r).1
        (meet depth a b r).2.subst := by
  have hs := h.acyclic
  have hah := h.leftWithin.height_lt hs h.built
  have hbh := h.rightWithin.height_lt hs h.built
  cases a with
  | var v =>
    cases b with
    | var w =>
      rw [meet]
      split
      · next heq => exact ⟨hs, fun θ => by simp [heq]⟩
      · next hne =>
        obtain ⟨hs', hspec⟩ := bindVar_spec hs (hb w rfl) (t := .var v) (fun x hx => by
          rw [Subst.apply_var_of_unbound (ha v rfl), Term.var.injEq] at hx
          exact hx ▸ hne) hah
        exact ⟨hs', hspec.congr (fun _ => Iff.rfl) fun _ _ => eq_comm⟩
    | con n ts =>
      exact bindVar_spec hs (ha v rfl) (fun x hx => by simp at hx) hbh
  | con m ss =>
    cases b with
    | var w =>
      obtain ⟨hs', hspec⟩ := bindVar_spec hs (hb w rfl) (t := .con m ss)
        (fun x hx => by simp at hx) hah
      exact ⟨hs', hspec.congr (fun _ => Iff.rfl) fun _ _ => eq_comm⟩
    | con n ts =>
      rw [meet]
      split
      · next heq =>
        obtain ⟨hmn, hlen⟩ := heq
        obtain ⟨hs', hspec⟩ := unifyAll_spec ih ss ts r hlen h.args
        exact ⟨hs', hspec.congr (fun _ => Iff.rfl) fun _ _ => by simp [hmn]⟩
      -- terms of different form have no common instance
      · next hne =>
        refine ⟨hs, fun θ _ heq => hne ?_⟩
        simp only [Ty.eval_con, Term.con.injEq] at heq
        exact ⟨heq.1, by simpa using congrArg List.length heq.2⟩

/-- A solution does not tell a type from the term it stands for. -/
theorem find_eval {r : Run} (hs : r.subst.Acyclic) (t : Ty) {θ : Nat → Term Nat}
    (hθ : Solves θ r.subst) : (r.find t).1.eval θ = t.eval θ := by
  rw [find_eq, ← hθ.eval_apply hs, hs.apply_root, hθ.eval_apply hs]

/-- The two searches at the start of each level change neither the solutions nor what unification
relies on. -/
theorem Ready.find {a b : Ty} {r : Run} (h : Ready U depth r.subst a b) :
    Ready U depth ((r.find a).2.find b).2.subst (r.find a).1 ((r.find a).2.find b).1 ∧
      (∀ θ, Solves θ ((r.find a).2.find b).2.subst ↔ Solves θ r.subst) ∧
      ∀ θ, Solves θ r.subst →
        (r.find a).1.eval θ = a.eval θ ∧ ((r.find a).2.find b).1.eval θ = b.eval θ := by
  have hs := h.acyclic
  have hc₁ := find_compressed hs a
  have hc := hc₁.trans (find_compressed hc₁.acyclic b)
  -- searching resolves types as before, so the solutions stay the same
  have hsol : ∀ θ, Solves θ ((r.find a).2.find b).2.subst ↔ Solves θ r.subst :=
    fun θ => Subst.solves_iff_of_apply hs hc.acyclic hc.apply_eq
  have heval : ∀ θ, Solves θ r.subst →
      (r.find a).1.eval θ = a.eval θ ∧ ((r.find a).2.find b).1.eval θ = b.eval θ := fun θ hθ =>
    ⟨find_eval hs a hθ, find_eval hc₁.acyclic b
      ((Subst.solves_iff_of_apply hs hc₁.acyclic hc₁.apply_eq).mpr hθ)⟩
  obtain ⟨haU, hw₁⟩ := find_writes (hereditary_builtFrom U) h.built h.left
  obtain ⟨hbU, hw₂⟩ := find_writes (hereditary_builtFrom U) (hw₁.bounded h.built) h.right
  exact ⟨⟨hc.acyclic, (hw₁.trans hw₂).bounded h.built, haU, hbU,
    (h.leftWithin.of_eval_eq fun θ hθ => (heval θ hθ).1.symm).mono fun θ => (hsol θ).mp,
    (h.rightWithin.of_eval_eq fun θ hθ => (heval θ hθ).2.symm).mono fun θ => (hsol θ).mp⟩,
    hsol, heval⟩

/-- **Unification is right on every level of the recursion.** -/
theorem unifyWithin_spec : ∀ (depth : Nat) (a b : Ty) (r : Run), Ready U depth r.subst a b →
    (unifyWithin depth a b r).2.subst.Acyclic ∧
      MostGeneral r.subst (fun θ => a.eval θ = b.eval θ) (unifyWithin depth a b r).1
        (unifyWithin depth a b r).2.subst := by
  intro depth
  induction depth with
  | zero =>
    intro a b r h
    exact absurd (h.leftWithin.height_lt h.acyclic h.built) (by omega)
  | succ depth ih =>
    intro a b r h
    -- the two searches come first, and what they find is met one level below
    have hc₁ := find_compressed h.acyclic a
    have hc₂ := find_compressed hc₁.acyclic b
    obtain ⟨hready, hsol, heval⟩ := h.find
    rw [unifyWithin_succ]
    obtain ⟨hs', hspec⟩ := meet_spec ih hready
      (fun v hv => ((hc₁.trans hc₂).unbound_iff v.id).mpr (h.acyclic.unbound_of_root hv))
      (fun v hv => (hc₂.unbound_iff v.id).mpr (hc₁.acyclic.unbound_of_root hv))
    exact ⟨hs', hspec.congr hsol fun θ hθ => by rw [(heval θ hθ).1, (heval θ hθ).2]⟩

/-- Once the first two types are unified, the rest can be. -/
theorem ReadyAll.tail_of_ok {a b : Ty} {as bs : List Ty} {r : Run}
    (h : ReadyAll U depth r.subst (a :: as) (b :: bs))
    (hok : (unifyWithin depth a b r).1 = .ok ()) :
    ReadyAll U depth (unifyWithin depth a b r).2.subst as bs := by
  obtain ⟨hs, hspec⟩ := unifyWithin_spec depth a b r h.head
  rw [hok] at hspec
  exact h.tail hs fun θ hθ => ((hspec θ).mp hθ).1

end Run

/-- The start of unification. -/
theorem ready_parts {s : Subst} (hs : s.Acyclic) (a b : Ty) :
    Run.Ready (parts s a b) (s.constructors + a.constructors + b.constructors + 1) s a b := by
  obtain ⟨hU, ha, hb⟩ := builtFrom_parts s a b
  rw [← length_parts]
  exact ⟨hs, hU, ha, hb, .start ha, .start hb⟩

/-- **The result of unification is right**, and the bindings stay acyclic. -/
theorem unify_spec {s : Subst} (hs : s.Acyclic) (a b : Ty) :
    (unify s a b).2.Acyclic ∧
      MostGeneral s (fun θ => a.eval θ = b.eval θ) (unify s a b).1 (unify s a b).2 := by
  obtain ⟨hs', hspec⟩ := Run.unifyWithin_spec _ a b ⟨s, []⟩ (ready_parts hs a b)
  cases hres : (unify s a b).1 with
  | error cause =>
    -- a failed unification takes its bindings back
    rw [unify_error hres]
    refine ⟨hs, ?_⟩
    rw [unify] at hres
    rcases hrun : Run.unifyWithin _ a b ⟨s, []⟩ with ⟨_ | _, r⟩ <;> rw [hrun] at hres hspec
    · exact hspec
    · exact absurd hres (by simp)
  | ok _ =>
    rw [unify] at hres ⊢
    rcases hrun : Run.unifyWithin _ a b ⟨s, []⟩ with ⟨_ | _, r⟩ <;> rw [hrun] at hres hs' hspec
    · exact absurd hres (by simp)
    · exact ⟨hs', hspec⟩

/-! ### Assignments of types -/

/-- The assignment `θ` of types to variables satisfies every binding of `s`, up to tags. -/
def Satisfies (θ : Nat → Ty) (s : Subst) : Prop :=
  ∀ n t, s[n]? = some t → (θ n).same (t.bind fun v => θ v.id)

/-- The assignment `θ` of types to variables makes two types equal, up to tags. -/
def Equates (θ : Nat → Ty) (a b : Ty) : Prop :=
  Ty.same (a.bind fun v => θ v.id) (b.bind fun v => θ v.id)

theorem satisfies_iff_solves {θ : Nat → Ty} {s : Subst} :
    Satisfies θ s ↔ Solves (fun n => (θ n).untagged) s := by
  refine forall_congr' fun n => forall_congr' fun t => imp_congr_right fun _ => ?_
  rw [Ty.same_iff, Ty.untagged_bind]
  rfl

theorem equates_iff_eval {θ : Nat → Ty} {a b : Ty} :
    Equates θ a b ↔ a.eval (fun n => (θ n).untagged) = b.eval fun n => (θ n).untagged := by
  rw [Equates, Ty.same_iff, Ty.untagged_bind, Ty.untagged_bind]
  rfl

/-- **Unification finds most general solutions, or there are none.**  It succeeds exactly if some
assignment of types satisfies the bindings and makes the two types equal; and then the new bindings
make them equal, and are satisfied by exactly these assignments. -/
theorem unify_mostGeneral {s : Subst} (hs : s.Acyclic) (a b : Ty) :
    ((unify s a b).1 = .ok () ↔ ∃ θ, Satisfies θ s ∧ Equates θ a b) ∧
      ((unify s a b).1 = .ok () →
        (unify s a b).2.Acyclic ∧
        ((unify s a b).2.apply a).same ((unify s a b).2.apply b) ∧
        ∀ θ, Satisfies θ (unify s a b).2 ↔ Satisfies θ s ∧ Equates θ a b) := by
  obtain ⟨hs', hspec⟩ := unify_spec hs a b
  generalize unify s a b = out at hs' hspec ⊢
  obtain ⟨result, s'⟩ := out
  simp only at hs' hspec ⊢
  cases result with
  | error cause =>
    refine ⟨iff_of_false (by simp) ?_, fun h => absurd h (by simp)⟩
    rintro ⟨θ, hθ, heq⟩
    exact hspec _ (satisfies_iff_solves.mp hθ) (equates_iff_eval.mp heq)
  | ok _ =>
    have hmg : ∀ θ, Satisfies θ s' ↔ Satisfies θ s ∧ Equates θ a b := by
      intro θ
      rw [satisfies_iff_solves, satisfies_iff_solves, equates_iff_eval]
      exact hspec _
    -- the bindings themselves are a solution
    have hself : Solves (s'.extend .var) s' := hs'.solves_extend .var
    refine ⟨iff_of_true rfl ⟨fun n => s'.apply (.var ⟨n, none⟩), (hmg _).mp ?_⟩,
      fun _ => ⟨hs', ?_, hmg⟩⟩
    · exact satisfies_iff_solves.mpr hself
    · have heq := ((hspec _).mp hself).2
      simp only [hs'.eval_extend] at heq
      exact Ty.same_iff.mpr heq

/-- Unification under bindings that form a chain, of types that share variables with them. -/
theorem unify_mostGeneral_chain :
    let s := Subst.ofList [(3, .var ⟨0, none⟩), (0, .product [.var ⟨1, none⟩, .var ⟨2, none⟩])]
    let a := Ty.arrow (.var ⟨3, none⟩) (.var ⟨1, some "VAR"⟩)
    let b := Ty.arrow (.product [.int, .var ⟨4, none⟩]) (.var ⟨4, none⟩)
    s.Acyclic ∧ ((unify s a b).1 = .ok () ↔ ∃ θ, Satisfies θ s ∧ Equates θ a b) := by
  intro s a b
  have hs : s.Acyclic := by
    refine Subst.acyclic_of_rank (fun n => if n = 3 then 2 else if n = 0 then 1 else 0) ?_
    rintro v w ⟨t, ht, hw⟩
    simp only [s, Subst.ofList, List.foldl_cons, List.foldl_nil, Std.ExtTreeMap.getElem?_insert,
      Nat.compare_eq_eq, Std.ExtTreeMap.getElem?_empty] at ht
    split at ht
    · next hv =>
      obtain rfl := Option.some.inj ht
      simp only [Ty.product, Ty.ids_con, List.flatMap_cons, List.flatMap_nil, Ty.ids_var,
        List.mem_append, List.mem_singleton, List.not_mem_nil, or_false] at hw
      rcases hw with rfl | rfl <;> simp [← hv]
    · split at ht
      · next hv =>
        obtain rfl := Option.some.inj ht
        rw [Ty.ids_var, List.mem_singleton] at hw
        simp [hw, ← hv]
      · exact absurd ht (by simp)
  exact ⟨hs, (unify_mostGeneral hs a b).1⟩

end LetTyping
