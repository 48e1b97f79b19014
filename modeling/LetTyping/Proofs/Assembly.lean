import LetTyping.Proofs.Principality
import LetTyping.Proofs.Reproduction

/-!
# Blocks from the instances of their statements

What the typing of a block can become depends on nothing but what the typings of its statements can
become and what they declare.  Here a statement is known by its instances only: this holds also
where an application has failed and there is no derivation.

## Main definitions

* `Typing.offers` — the names that a typing declares, with their instances.
* `Tree.inferred`, `Tree.offers` — the instances of what inference finds for a tree.
* `Composes` — statements lead from uses and a type so far to those in the end.

## Main results

* `Tree.result_standard`, `Tree.result_follows` — the instances do not depend on the state.
* `blockResult_composes` — **a block's typing has no other instances than its statements allow.**
* `blockResult_composed` — **nothing that the statements of a block allow is refused.**
-/

namespace LetTyping

variable {K L M : Nat → Prop} {st st' : State} {η : Nat → Plain} {R R' T sofar stmt : Typing}
  {c c' : Uses Plain} {t t' : Plain} {d : Table Instances} {n : Tree Span} {ns : List (Tree Span)}

/-! ### Instances of typings -/

/-- The names that a typing declares, with their instances. -/
def Typing.offers (R : Typing) : Table Instances := Table.mapValues Typing.instances R.defined

namespace Typing

theorem offers_apply (s : Subst) (T : Typing) :
    (T.apply s).offers = Table.mapValues (fun S => (S.apply s).instances) T.defined := by
  rw [offers, Typing.apply, mapTypes_defined, Table.mapValues, Table.mapValues, List.map_map]
  rfl

/-- What is declared is offered by the resolved forms alone. -/
theorem offers_congr {s s' : Subst} (h : ∀ e ∈ T.defined, e.2.apply s' = e.2.apply s) :
    (T.apply s').offers = (T.apply s).offers := by
  rw [offers_apply, offers_apply]
  exact List.map_congr_left fun e he => congrArg (fun S => (e.1, instances S)) (h e he)

/-- Other variables in the place of those of a typing leave its instances as they are, if the types
for the ones can be had from types for the others. -/
theorem instances_mapTypes {P : Ty → Prop} {g : Ty → Ty} (hP : R.All P)
    (hfrom : ∀ θ, ∃ ζ, ∀ t, P t → Ty.eval θ (g t) = t.eval ζ)
    (hto : ∀ θ, ∃ ζ, ∀ t, P t → Ty.eval ζ (g t) = t.eval θ) :
    (R.mapTypes g).instances = R.instances := by
  obtain ⟨hty, hcontext, -⟩ := all_iff.mp hP
  -- both inclusions come from equations of the same shape, with the types on either side exchanged
  have hmap : ∀ {θ ζ : Nat → Plain}, (∀ t, P t → Ty.eval θ (g t) = t.eval ζ) →
      Uses.map (Ty.eval θ) (R.mapTypes g).context = Uses.map (Ty.eval ζ) R.context ∧
        (R.mapTypes g).ty.eval θ = R.ty.eval ζ := by
    intro θ ζ h
    rw [mapTypes_context, mapTypes_ty, Uses.map_map]
    exact ⟨Uses.map_congr fun e he t ht => h t (hcontext e he t ht), h R.ty hty⟩
  funext c t
  refine propext ⟨?_, ?_⟩
  · rintro ⟨θ, rfl, rfl⟩
    obtain ⟨ζ, hζ⟩ := hfrom θ
    exact ⟨ζ, hmap hζ⟩
  · rintro ⟨θ, rfl, rfl⟩
    obtain ⟨ζ, hζ⟩ := hto θ
    exact ⟨ζ, (hmap hζ).1.symm, (hmap hζ).2.symm⟩

theorem offers_mapTypes {P : Ty → Prop} {g : Ty → Ty} (hP : R.All P)
    (hfrom : ∀ θ, ∃ ζ, ∀ t, P t → Ty.eval θ (g t) = t.eval ζ)
    (hto : ∀ θ, ∃ ζ, ∀ t, P t → Ty.eval ζ (g t) = t.eval θ) :
    (R.mapTypes g).offers = R.offers := by
  rw [offers, offers, mapTypes_defined, Table.mapValues, Table.mapValues, Table.mapValues,
    List.map_map]
  refine List.map_congr_left fun e he => congrArg (Prod.mk e.1) ?_
  exact instances_mapTypes ((all_iff.mp hP).2.2 e he) hfrom hto

/-- Numbering afresh leaves the instances of what is declared as they are. -/
theorem offers_renumber (R : Typing) (first : Nat) : (R.renumber first).offers = R.offers := by
  refine offers_mapTypes R.all_mem_ids (fun θ => ⟨_, fun t _ => eval_renumber θ t⟩) fun θ => ?_
  obtain ⟨ζ, -, hζ⟩ := R.exists_assignment first θ θ
  refine ⟨ζ, fun t ht => ?_⟩
  rw [eval_renumber]
  exact Ty.eval_congr fun m hm => hζ m (ht m hm)

end Typing

/-- Typings that are alike have the same instances. -/
theorem Alike.instances_eq (h : Alike R R') :
    R'.instances = R.instances ∧ R'.offers = R.offers := by
  obtain ⟨f, hf, rfl⟩ := h
  have hfrom : ∀ θ : Nat → Plain, ∃ ζ, ∀ t : Ty, (∀ w ∈ t.ids, w ∈ R.ids) →
      Ty.eval θ (t.rename f) = t.eval ζ := fun θ => ⟨θ ∘ f, fun t _ => Ty.eval_rename θ f t⟩
  have hto : ∀ θ : Nat → Plain, ∃ ζ, ∀ t : Ty, (∀ w ∈ t.ids, w ∈ R.ids) →
      Ty.eval ζ (t.rename f) = t.eval θ := by
    intro θ
    refine ⟨θ ∘ Function.invFunOn f {n | n ∈ R.ids}, fun t ht => ?_⟩
    rw [Ty.eval_rename]
    refine Ty.eval_congr fun m hm => congrArg θ ?_
    exact hf.leftInvOn_invFunOn (ht m hm)
  exact ⟨Typing.instances_mapTypes R.all_mem_ids hfrom hto,
    Typing.offers_mapTypes R.all_mem_ids hfrom hto⟩

/-! ### Instances of trees -/

/-- The instances of what inference finds for a tree. -/
def Tree.inferred (n : Tree Span) : Instances := fun c t =>
  ∃ T st, n.result {} = (.ok T, st) ∧ (T.apply st.subst).instances c t

/-- The names that are declared by what inference finds for a tree, with their instances. -/
def Tree.offers (n : Tree Span) : Table Instances :=
  match n.result {} with
  | (.ok T, st) => (T.apply st.subst).offers
  | (.error _, _) => []

/-- **The instances of what inference finds do not depend on the state.** -/
theorem Tree.result_standard (h : Region Anywhere st) (hres : n.result st = (.ok T, st')) :
    (T.apply st'.subst).instances = n.inferred ∧ (T.apply st'.subst).offers = n.offers := by
  -- the run from the given state is alike the run from the start, by which instances are defined
  have hsame := n.result_same region_start h
  have hinferred : n.inferred = fun c t =>
    ∃ T st, n.result {} = (.ok T, st) ∧ (T.apply st.subst).instances c t := rfl
  rw [hres] at hsame
  rw [hinferred, offers]
  generalize n.result {} = x at hsame
  cases hsame with
  | @ok T₀ st₀ _ _ halike =>
    obtain ⟨hinstances, hoffers⟩ := Alike.instances_eq halike
    refine ⟨?_, hoffers⟩
    rw [hinstances]
    funext c t
    refine propext ⟨fun hct => ⟨T₀, st₀, rfl, hct⟩, ?_⟩
    rintro ⟨_, _, heq, hct⟩
    cases heq
    exact hct

/-- Every instance is found from every state, beside any solution of the bindings so far. -/
theorem Tree.result_follows (h : Region Anywhere st) (hη : Solves η st.subst)
    (hct : n.inferred c t) :
    ∃ T st' η', n.result st = (.ok T, st') ∧ Solves η' st'.subst ∧ (∀ m < st.count, η' m = η m) ∧
      c = Uses.map (Ty.eval η') T.context ∧ t = T.ty.eval η' := by
  have hsame := n.result_same region_start h
  obtain ⟨T₀, st₀, hres₀, -⟩ := id hct
  rw [hres₀] at hsame
  rcases hn : infer n.unmarked st with ⟨⟨r, n'⟩, st'⟩
  obtain ⟨hev, hown⟩ := infer_unmarked_evolves h hn
  have hres := Tree.result_of_infer hn
  rw [hres] at hsame
  cases hsame with
  | @ok _ _ T _ _ =>
    rw [← (result_standard h hres).1, Typing.instances] at hct
    obtain ⟨θ, rfl, rfl⟩ := hct
    -- old variables keep their types, and the new ones get those of the instance
    let ζ : Nat → Plain := fun m => if m < st.count then η m else θ m
    obtain ⟨hsolves, hagree⟩ := hev.exists_solution h
      (h.solves_congr hη fun m hm => (if_pos hm : ζ m = η m))
    have heval : ∀ u : Ty, Owns (st.count ≤ ·) st' u →
        u.eval (st'.subst.extend ζ) = (st'.subst.apply u).eval θ := fun u hu => by
      rw [hev.region.acyclic.eval_extend]
      exact Ty.eval_congr fun m hm =>
        if_neg (Nat.not_lt.mpr (hev.region.owns_apply hu m hm).1)
    obtain ⟨hty, hcontext, -⟩ := Typing.all_iff.mp (hown T rfl)
    refine ⟨T, st', _, hres, hsolves, fun m hm => (hagree m hm).trans (if_pos hm), ?_, ?_⟩
    · rw [Typing.apply, Typing.mapTypes_context, Uses.map_map]
      exact Uses.map_congr fun e he u hu => (heval u (hcontext e he u hu)).symm
    · rw [Typing.apply, Typing.mapTypes_ty, heval _ hty]

/-! ### Statements -/

/-- The declarations so far and those of the next statement's instance have the instances that are
offered. -/
theorem Apart.offers_meet (hM : Apart M st stmt) (sofar : Typing) :
    Table.mapValues (fun S => (S.apply (instantiate stmt st).2.subst).instances)
        (Table.insertAll sofar.defined (instantiate stmt st).1.defined) =
      Table.insertAll (sofar.apply st.subst).offers (stmt.apply st.subst).offers := by
  obtain ⟨-, -, -, heq⟩ := instantiate_evolves hM.region hM.all
  have hsubst : (instantiate stmt st).2.subst = st.subst := by rw [heq]
  have hcopy := hM.region.apply_instance hM.all
  rw [hsubst] at hcopy
  rw [hsubst, Table.mapValues_insertAll, ← Typing.offers_apply,
    ← Typing.offers_apply st.subst (instantiate stmt st).1, hcopy, heq, Typing.offers_renumber]

/-- What a statement declares is added to what is declared, with the same instances. -/
theorem absorb_offers {span : Span} (hL : Apart L st sofar) (hM : Apart M st stmt)
    (hres : absorb sofar span stmt st = (.ok T, st')) :
    (T.apply st'.subst).offers =
      Table.insertAll (sofar.apply st.subst).offers (stmt.apply st.subst).offers := by
  obtain ⟨-, hdefined, hsame⟩ := absorb_apart hL hM hres
  rw [Typing.offers_congr hsame, Typing.offers_apply, hdefined, hM.offers_meet]

/-- Declared names have the instances that are offered, and no others. -/
theorem offers_rel {P : Typing → Instances → Prop} {defined : Defined} {s : Subst}
    (h : ∀ S, P S (S.apply s).instances) :
    Table.Rel P defined (Table.mapValues (fun S => (S.apply s).instances) defined) := by
  induction defined with
  | nil => exact .nil
  | cons e defined ih => exact .cons ⟨rfl, h e.2⟩ ih

/-- A statement that is taken in uses instances of what is declared. -/
theorem absorb_settles {span : Span} (hL : Apart L st sofar) (hM : Apart M st stmt)
    (hres : absorb sofar span stmt st = (.ok T, st')) (hη : Solves η st'.subst) :
    ∃ c, (stmt.apply st.subst).instances c (T.ty.eval η) ∧
      Settles id (T.apply st'.subst).offers c (Uses.map (Ty.eval η) sofar.context)
        (Uses.map (Ty.eval η) T.context) := by
  obtain ⟨-, hdefined, hsame⟩ := absorb_apart hL hM hres
  obtain ⟨K, -, hK, hdef⟩ := hL.meet hM
  obtain ⟨result, out, st₁, hrun, heq⟩ := absorb_run sofar span stmt st
  rw [heq] at hres
  cases result with
  | error problem => cases hres
  | ok _ =>
    cases hres
    obtain ⟨θ, hty, hcontext⟩ := instantiate_sound hM.region hM.all η
    refine ⟨_, ⟨θ, hcontext, hty⟩, ?_⟩
    rw [Typing.offers_congr hsame, Typing.offers_apply]
    exact hrun.settles hK.region (fun e he => (hdef e he).imp fun _ ht => ht.anywhere)
      hK.split.2.1 (offers_rel fun _ _ _ => id) rfl hη

/-- Statements lead from uses and a type so far, given what is declared, to those in the end. -/
inductive Composes : List (Tree Span) → Table Instances → Uses Plain → Plain → Uses Plain → Plain →
    Prop
  | nil {d : Table Instances} {c : Uses Plain} {t : Plain} : Composes [] d c t c t
  | cons {n : Tree Span} {ns : List (Tree Span)} {d : Table Instances}
      {c c₁ c₂ c' : Uses Plain} {t t₁ t' : Plain} : n.inferred c₁ t₁ →
      Settles id (Table.insertAll d n.offers) c₁ c c₂ →
      Composes ns (Table.insertAll d n.offers) c₂ t₁ c' t' → Composes (n :: ns) d c t c' t'

/-- Statements touch only what they allocate, but for what their block has so far. -/
theorem blockResult_evolves (ns : List (Tree Span)) (h : Region Anywhere st)
    (hsofar : sofar.All (Owns Anywhere st)) :
    Evolves (st.count ≤ ·) st (blockResult sofar ns st).2 := by
  refine (inferStatements_evolves (ns.map Tree.unmarked) (fun t _ => infer_evolves t) h hsofar ?_).1
  rw [List.forall_mem_map]
  exact fun n _ => Tree.marked_unmarked n

/-- What inference finds for a tree has variables of its own, and keeps its declarations apart. -/
theorem Tree.result_apart (h : Region Anywhere st) (hres : n.result st = (.ok T, st')) :
    Evolves (st.count ≤ ·) st st' ∧ ∃ M, Apart M st' T := by
  rcases hn : infer n.unmarked st with ⟨⟨r, n'⟩, st₁⟩
  rw [result_of_infer hn] at hres
  cases hres
  exact ⟨(infer_unmarked_evolves h hn).1, ((follows n).declares h hn).1⟩

/-- **A block's typing has no other instances than its statements allow.** -/
theorem blockResult_composes (ns : List (Tree Span)) :
    ∀ {L : Nat → Prop} {sofar : Typing} {st : State}, Region Anywhere st → Apart L st sofar →
      ∀ {T : Typing} {st' : State}, blockResult sofar ns st = (.ok T, st') →
      ∀ {η : Nat → Plain}, Solves η st'.subst →
        Composes ns (sofar.apply st.subst).offers (Uses.map (Ty.eval η) sofar.context)
          (sofar.ty.eval η) (Uses.map (Ty.eval η) T.context) (T.ty.eval η) := by
  induction ns with
  | nil =>
    intro L sofar st _ _ T st' hres η _
    cases hres
    exact .nil
  | cons n ns ih =>
    intro L sofar st h hL T st' hres η hη
    have h₀ := State.logged_evolves h.above (.statement n.kind n.label.start)
    rw [blockResult_cons, Infer.lift_bind_apply, record_eq] at hres
    obtain ⟨raw, st₁, hraw, hres⟩ := Infer.bind_ok hres
    obtain ⟨sofar', st₂, habsorb, hres⟩ := Infer.bind_ok hres
    -- the statement allows what it allows alone, and is apart from what was collected so far
    obtain ⟨hinferred, hoffers⟩ := Tree.result_standard (h₀.region_of h) hraw
    obtain ⟨h₁, M, hM⟩ := Tree.result_apart (h₀.region_of h) hraw
    have h₀₁ := h₀.step h₁
    have hL₁ := hL.evolve h₀₁
    have h₂ := (absorb_evolves (h₀₁.region_of h) hL₁.all hM.all n.label).1
    rw [habsorb] at h₂
    have hst₂ := (h₀₁.step h₂).region_of h
    obtain ⟨⟨K, hK⟩, -⟩ := absorb_apart hL₁ hM habsorb
    -- types that solve the final state solve the state after this statement as well
    have hη₂ : Solves η st₂.subst := by
      have h₃ := blockResult_evolves ns hst₂ hK.all
      rw [hres] at h₃
      exact h₃.solves η hη
    obtain ⟨c₁, hinstance, hsettles⟩ := absorb_settles hL₁ hM habsorb hη₂
    have hrest := ih hst₂ hK hres hη
    -- names are offered as in the state where the statement was found
    rw [absorb_offers hL₁ hM habsorb, h₀₁.apply_typing h hL.all, hoffers] at hsettles hrest
    exact .cons (hinferred ▸ hinstance) hsettles hrest

/-- **Nothing that the statements of a block allow is refused.** -/
theorem blockResult_composed (ns : List (Tree Span)) :
    ∀ {L : Nat → Prop} {sofar : Typing} {st : State} {η : Nat → Plain}, Region Anywhere st →
      Apart L st sofar → Solves η st.subst → ∀ {c : Uses Plain} {t : Plain},
      Composes ns (sofar.apply st.subst).offers (Uses.map (Ty.eval η) sofar.context)
        (sofar.ty.eval η) c t →
      ∃ T st' η', blockResult sofar ns st = (.ok T, st') ∧ Solves η' st'.subst ∧
        c = Uses.map (Ty.eval η') T.context ∧ t = T.ty.eval η' := by
  induction ns with
  | nil =>
    intro L sofar st η _ _ hη c t hcomposes
    cases hcomposes
    exact ⟨sofar, st, η, rfl, hη, rfl, rfl⟩
  | cons n ns ih =>
    intro L sofar st η h hL hη c t hcomposes
    cases hcomposes with
    | @cons _ _ _ _ _ c₂ _ _ _ _ hn hsettles hrest =>
      have h₀ := State.logged_evolves h.above (.statement n.kind n.label.start)
      -- the statement can take the types that it is to have, next to those already given
      obtain ⟨raw, st₁, η₁, hraw, hη₁, hagree₁, rfl, rfl⟩ :=
        Tree.result_follows (h₀.region_of h) hη hn
      obtain ⟨-, hoffers⟩ := Tree.result_standard (h₀.region_of h) hraw
      obtain ⟨h₁, M, hM⟩ := Tree.result_apart (h₀.region_of h) hraw
      have h₀₁ := h₀.step h₁
      have hL₁ := hL.evolve h₀₁
      rw [← h₀₁.apply_typing h hL.all, ← hoffers] at hsettles hrest
      rw [← Owns.map_eval_eq (Typing.all_iff.mp hL.all).2.1 hagree₁] at hsettles
      -- each declared name offers at least what the rules allow for it
      have hcovered : Covered id (instantiate raw st₁).2
          (Table.insertAll sofar.defined (instantiate raw st₁).1.defined)
          (Table.insertAll (sofar.apply st₁.subst).offers (raw.apply st₁.subst).offers) := by
        rw [← hM.offers_meet]
        exact offers_rel fun _ _ _ => id
      -- so the statement is taken in, and types are found for the new variables
      obtain ⟨sofar', st₂, η₂, habsorb, hη₂, -, rfl, hty₂⟩ :=
        absorb_settled hL₁ hM hcovered hη₁ n.label hsettles
      obtain ⟨⟨K, hK⟩, -⟩ := absorb_apart hL₁ hM habsorb
      have h₂ := (absorb_evolves (h₀₁.region_of h) hL₁.all hM.all n.label).1
      rw [habsorb] at h₂
      rw [← absorb_offers hL₁ hM habsorb, ← hty₂] at hrest
      obtain ⟨T, st', η', hres, hη', hc, ht⟩ := ih ((h₀₁.step h₂).region_of h) hK hη₂ hrest
      refine ⟨T, st', η', ?_, hη', hc, ht⟩
      rw [blockResult_cons, Infer.lift_bind_apply, record_eq]
      exact (Infer.bind_of_ok hraw _).trans ((Infer.bind_of_ok habsorb _).trans hres)

end LetTyping
