import Mathlib
import LetTyping.Proofs.Assembly
import LetTyping.Proofs.Checking
import LetTyping.Proofs.TypeText

/-!
# Builtin names and declared names

A declared name takes an instance of its own for every statement that uses it.  A builtin name does
not: its uses are collected from all statements, and at the end of the program they all take one and
the same instance.  So a check with the prelude is not the same as inference with the builtin names
declared before the first statement, which is called the seeded run here.  The check refuses some
programs that the seeded run takes, and gives others a more special type.

The two agree on a program if and only if its builtin names can be given one instance each that fits
all uses, without making the type of the program more special than the seeded run does.

## Main definitions

* `Shared`, `Fits` — the uses of each name are one instance of it, or are instances of it.
* `builtinInstances` — the builtin names, with their instances.
* `seeded` — inference of a program with the builtin names declared from the start.
* `ChecksAs` — a program passes its check, with a type of the given text.

## Main results

* `Composes.seed`, `Composes.unseed` — statements with and without declarations of some names.
* `prelude_instances` — the prelude declares the builtin names with their instances.
* `shared_of_check`, `check_of_shared` — a check finds what the program allows for shared names.
* `checksAs_seeded_iff` — **when builtin names are as polymorphic as declared ones.**
* `builtins_not_polymorphic` — programs for which they are not.
-/

namespace LetTyping

variable {B d d' : Table Instances} {c c' out out' : Uses Plain} {t t' : Plain}
  {ns : List (Tree Span)}

/-! ### Names that are declared beside others -/

/-- The second table declares what the first one does and, beside that, the names in `B`. -/
def Seeds (B d d' : Table Instances) : Prop :=
  ∀ name, Table.get? d' name = (Table.get? d name).or (Table.get? B name)

theorem Seeds.insertAll (h : Seeds B d d') (u : Table Instances) :
    Seeds B (Table.insertAll d u) (Table.insertAll d' u) := by
  induction u generalizing d d' with
  | nil => exact h
  | cons e u ih =>
    refine ih fun name => ?_
    rw [Table.get?_insert, Table.get?_insert]
    split
    · rfl
    · exact h name

/-- All uses of each name in `B` are one instance of it. -/
def Shared (B : Table Instances) (c : Uses Plain) : Prop :=
  ∀ name i, Table.get? B name = some i → ∃ t, i [] t ∧ ∀ u ∈ Uses.of c name, u = t

/-- Every use of a name in `B` is an instance of it. -/
def Fits (B : Table Instances) (c : Uses Plain) : Prop :=
  ∀ name i, Table.get? B name = some i → ∀ u ∈ Uses.of c name, i [] u

/-- Every name in `B` has an instance, and uses no names itself. -/
def Closed (B : Table Instances) : Prop :=
  ∀ name i, Table.get? B name = some i → (∃ t, i [] t) ∧ ∀ c t, i c t → c = []

/-- Uses that pass out fit if they are instances, should the name be one of `B`. -/
theorem Fits.passOut {name : String} {ts : List Plain} (h : Fits B c)
    (hts : ∀ i, Table.get? B name = some i → ∀ u ∈ ts, i [] u) :
    Fits B (Uses.passOut c name ts) := by
  intro x i hx u hu
  rw [Uses.of_passOut] at hu
  split at hu
  · next heq =>
    subst heq
    exact (List.mem_append.mp hu).elim (h x i hx u) (hts i hx u)
  · exact h x i hx u hu

theorem Shared.anti (h : Shared B c') (hsub : ∀ name, Uses.of c name ⊆ Uses.of c' name) :
    Shared B c := by
  intro name i hi
  obtain ⟨t, ht, hall⟩ := h name i hi
  exact ⟨t, ht, fun u hu => hall u (hsub name hu)⟩

namespace Settles

/-- Uses of undeclared names are never lost. -/
theorem of_subset (h : Settles id d c out out') (name : String) :
    Uses.of out name ⊆ Uses.of out' name := by
  induction h with
  | nil => exact List.Subset.refl _
  | undeclared _ _ ih =>
    refine List.Subset.trans ?_ ih
    rw [Uses.of_passOut]
    split
    · exact List.subset_append_left _ _
    · exact List.Subset.refl _
  | declared _ _ _ _ _ ih ihrest => exact List.Subset.trans ih ihrest

theorem nodup_keys (h : Settles id d c out out') (hout : (Table.keys out).Nodup) :
    (Table.keys out').Nodup := by
  induction h with
  | nil => exact hout
  | undeclared _ _ ih => exact ih (Uses.nodup_keys_passOut hout _ _)
  | declared _ _ _ _ _ ih ihrest => exact ihrest (ih hout)

/-- Names in `B` whose uses are one instance may be declared. -/
theorem seed (h : Settles id d c out out') (hd : Seeds B d d') (hshared : Shared B out')
    (out₁ : Uses Plain) : ∃ out₁', Settles id d' c out₁ out₁' := by
  induction h generalizing out₁ with
  | nil => exact ⟨out₁, .nil⟩
  | @undeclared name ts c out out' hget hrest ih =>
    have hname := hd name
    rw [hget, Option.none_or] at hname
    cases hB : Table.get? B name with
    | none =>
      obtain ⟨out₁', hsettles⟩ := ih hshared (Uses.passOut out₁ name ts)
      exact ⟨out₁', .undeclared (hname.trans hB) hsettles⟩
    | some i =>
      -- the name was passed out and is declared now, as the one instance that all its uses share
      obtain ⟨t, ht, hall⟩ := hshared name i hB
      obtain ⟨out₁', hsettles⟩ := ih hshared out₁
      refine ⟨out₁', .declared (hname.trans hB) ht (fun u hu => hall u ?_) .nil hsettles⟩
      -- its uses are among those that are passed out in the end
      refine hrest.of_subset name ?_
      rw [Uses.of_passOut, if_pos rfl]
      exact List.mem_append_right _ hu
  | @declared name i _ _ _ _ _ _ _ hget hi hts _ hrest ih ihrest =>
    have hname := hd name
    rw [hget, Option.some_or] at hname
    -- what the names of the instance pass out is among what is passed out in the end
    obtain ⟨out₂, hinner⟩ := ih (hshared.anti hrest.of_subset) out₁
    obtain ⟨out₁', hsettles⟩ := ihrest hshared out₂
    exact ⟨out₁', .declared hname hi hts hinner hsettles⟩

/-- Names in `B` may be left undeclared.  Their uses are instances of them. -/
theorem unseed (h : Settles id d' c out out') (hd : Seeds B d d') (hB : Closed B)
    {out₁ : Uses Plain} (hfits : Fits B out₁) :
    ∃ out₁', Settles id d c out₁ out₁' ∧ Fits B out₁' := by
  induction h generalizing out₁ with
  | nil => exact ⟨out₁, .nil, hfits⟩
  | @undeclared name ts _ _ _ hget _ ih =>
    have hname := hd name
    rw [hget, eq_comm, Option.or_eq_none_iff] at hname
    have huses : ∀ i, Table.get? B name = some i → ∀ u ∈ ts, i [] u := by simp [hname.2]
    obtain ⟨out₁', hsettles, hfits'⟩ := ih (hfits.passOut huses)
    exact ⟨out₁', .undeclared hname.1 hsettles, hfits'⟩
  | @declared name i ts _ c' t _ _ _ hget hi hts _ _ ih ihrest =>
    have hname := hd name
    rw [hget] at hname
    cases hget' : Table.get? d name with
    | some j =>
      rw [hget', Option.some_or, Option.some_inj] at hname
      obtain ⟨out₂, hinner, hfits₂⟩ := ih hfits
      obtain ⟨out₁', hsettles, hfits'⟩ := ihrest hfits₂
      exact ⟨out₁', .declared hget' (hname ▸ hi) hts hinner hsettles, hfits'⟩
    | none =>
      -- The name is one of `B`, and its uses pass out.
      rw [hget', Option.none_or] at hname
      obtain rfl := (hB name i hname.symm).2 c' t hi
      have huses : ∀ j, Table.get? B name = some j → ∀ u ∈ ts, j [] u := by
        intro j hj u hu
        rw [← hname, Option.some_inj] at hj
        rwa [← hj, hts u hu]
      obtain ⟨out₁', hsettles, hfits'⟩ := ihrest (hfits.passOut huses)
      exact ⟨out₁', .undeclared hget' hsettles, hfits'⟩

/-- Names that are declared without uses of their own are resolved if their uses are one instance
each. -/
theorem of_shared (hshared : Shared B c) (hnodup : (Table.keys c).Nodup) (out : Uses Plain) :
    ∃ out', Settles id B c out out' := by
  induction c generalizing out with
  | nil => exact ⟨out, .nil⟩
  | cons e c ih =>
    obtain ⟨name, ts⟩ := e
    rw [Table.keys, List.map_cons, List.nodup_cons] at hnodup
    -- no name stands twice in the context, so its uses are all in the first entry
    have hrest : Shared B c := by
      refine hshared.anti fun x => ?_
      rw [Uses.of_cons]
      split
      · next heq =>
        rw [← heq, Uses.of_eq_nil hnodup.1]
        exact List.nil_subset _
      · exact List.Subset.refl _
    cases hB : Table.get? B name with
    | none =>
      obtain ⟨out', hsettles⟩ := ih hrest hnodup.2 (Uses.passOut out name ts)
      exact ⟨out', .undeclared hB hsettles⟩
    | some i =>
      obtain ⟨t, ht, hall⟩ := hshared name i hB
      obtain ⟨out', hsettles⟩ := ih hrest hnodup.2 out
      refine ⟨out', .declared hB ht (fun u hu => hall u ?_) .nil hsettles⟩
      rwa [Uses.of_cons, if_pos rfl]

/-- Names that are declared without uses of their own have uses of one instance each. -/
theorem shared (h : Settles id B c out out') (hB : Closed B) : Shared B c := by
  induction h with
  | nil =>
    intro x i hx
    obtain ⟨t, ht⟩ := (hB x i hx).1
    exact ⟨t, ht, fun u hu => absurd hu List.not_mem_nil⟩
  | @undeclared name ts c _ _ hget _ ih =>
    intro x i hx
    have hne : name ≠ x := fun heq => by simp [← heq, hget] at hx
    rw [Uses.of_cons, if_neg hne]
    exact ih x i hx
  | @declared name j ts c c' t _ _ _ hget hj hts _ _ _ ih =>
    intro x i hx
    rw [Uses.of_cons]
    split
    · next heq =>
      rw [← heq, hget, Option.some_inj] at hx
      -- a builtin name has no uses of its own, so nothing else is resolved for the instance
      obtain rfl := (hB name j hget).2 c' t hj
      exact ⟨t, hx ▸ hj, hts⟩
    · exact ih x i hx

end Settles

namespace Composes

theorem of_subset (h : Composes ns d c t c' t') (name : String) :
    Uses.of c name ⊆ Uses.of c' name := by
  induction h with
  | nil => exact List.Subset.refl _
  | cons _ hsettles _ ih => exact List.Subset.trans (hsettles.of_subset name) ih

theorem nodup_keys (h : Composes ns d c t c' t') (hc : (Table.keys c).Nodup) :
    (Table.keys c').Nodup := by
  induction h with
  | nil => exact hc
  | cons _ hsettles _ ih => exact ih (hsettles.nodup_keys hc)

/-- **Names whose uses are one instance may be declared before the statements.** -/
theorem seed (h : Composes ns d c t c' t') (hd : Seeds B d d') (hshared : Shared B c')
    (c₁ : Uses Plain) : ∃ c₁', Composes ns d' c₁ t c₁' t' := by
  induction h generalizing d' c₁ with
  | nil => exact ⟨c₁, .nil⟩
  | @cons n _ _ _ _ _ _ _ _ _ hn hsettles hrest ih =>
    have hd₁ := hd.insertAll n.offers
    obtain ⟨c₂, hsettles'⟩ := hsettles.seed hd₁ (hshared.anti hrest.of_subset) c₁
    obtain ⟨c₁', hrest'⟩ := ih hd₁ hshared c₂
    exact ⟨c₁', .cons hn hsettles' hrest'⟩

/-- **Names that are declared before the statements may be left undeclared.** -/
theorem unseed (h : Composes ns d' c t c' t') (hd : Seeds B d d') (hB : Closed B)
    {c₁ : Uses Plain} (hfits : Fits B c₁) : ∃ c₁', Composes ns d c₁ t c₁' t' ∧ Fits B c₁' := by
  induction h generalizing d c₁ with
  | nil => exact ⟨c₁, .nil, hfits⟩
  | @cons n _ _ _ _ _ _ _ _ _ hn hsettles hrest ih =>
    have hd₁ := hd.insertAll n.offers
    obtain ⟨c₂, hsettles', hfits₂⟩ := hsettles.unseed hd₁ hB hfits
    obtain ⟨c₁', hrest', hfits'⟩ := ih hd₁ hfits₂
    exact ⟨c₁', .cons hn hsettles' hrest', hfits'⟩

end Composes

/-! ### The builtin names -/

/-- The type of functions with one parameter, a pair. -/
def Plain.pairFn (a b result : Plain) : Plain := .arrow (.product [.product [a, b]]) result

/-- The builtin names, with the types that they may be used at. -/
def builtinTypes : Table (Plain → Prop) := [
  ("add", fun t => t = .arrow (.product [.int, .int]) .int),
  ("sub", fun t => t = .arrow (.product [.int, .int]) .int),
  ("mul", fun t => t = .arrow (.product [.int, .int]) .int),
  ("neg", fun t => t = .arrow (.product [.int]) .int),
  ("unit", fun t => t = .unit),
  ("fst", fun t => ∃ a b, t = .pairFn a b a),
  ("snd", fun t => ∃ a b, t = .pairFn a b b),
  ("swap", fun t => ∃ a b, t = .pairFn a b (.product [b, a]))]

/-- The instances of a name that uses no names itself. -/
def ofTypes (P : Plain → Prop) : Instances := fun c t => c = [] ∧ P t

/-- The builtin names, with their instances. -/
def builtinInstances : Table Instances := Table.mapValues ofTypes builtinTypes

theorem get?_builtinInstances {name : String} {i : Instances}
    (h : Table.get? builtinInstances name = some i) :
    ∃ P, (name, P) ∈ builtinTypes ∧ i = ofTypes P := by
  rw [builtinInstances, Table.get?_mapValues, Option.map_eq_some_iff] at h
  obtain ⟨P, hP, rfl⟩ := h
  exact ⟨P, Table.mem_of_get? hP, rfl⟩

theorem closed_builtinInstances : Closed builtinInstances := by
  intro name i h
  obtain ⟨P, hP, rfl⟩ := get?_builtinInstances h
  have hplain : Nonempty Plain := ⟨.unit⟩
  have hinhabited : ∀ e ∈ builtinTypes, ∃ t, e.2 t := by simp [builtinTypes]
  obtain ⟨t, ht⟩ := hinhabited _ hP
  exact ⟨⟨t, rfl, ht⟩, fun c t hct => hct.1⟩

theorem Typing.closed_instances {ty : Ty} {P : Plain → Prop} (h : ∀ t, P t ↔ ∃ θ, t = ty.eval θ) :
    (Typing.closed ty).instances = ofTypes P := by
  funext c t
  refine propext ⟨?_, ?_⟩
  · rintro ⟨θ, rfl, rfl⟩
    exact ⟨rfl, (h _).mpr ⟨θ, rfl⟩⟩
  · rintro ⟨rfl, ht⟩
    obtain ⟨θ, rfl⟩ := (h t).mp ht
    exact ⟨θ, rfl, rfl⟩

/-- **The builtin names have the instances that are listed.** -/
theorem prelude_instances {st : State} (h : Region Anywhere st) :
    Table.mapValues (fun S => (S.apply (prelude st).2.subst).instances) (prelude st).1 =
      builtinInstances := by
  obtain ⟨-, howns⟩ := prelude_evolves h.above
  have hresolved : ∀ e ∈ (prelude st).1, e.2.apply (prelude st).2.subst = e.2 := fun e he =>
    Typing.mapTypes_eq_self ((howns e he).imp fun t ht =>
      Subst.apply_eq_self fun w hw => h.unbound (ht w hw).1)
  have hplain : Nonempty (Nat → Plain) := ⟨.var⟩
  -- types for two neighbouring variables are types for all variables
  have hpair : ∀ (i : Nat) {Q : Plain → Plain → Plain} {ty : Ty},
      (∀ θ, ty.eval θ = Q (θ i) (θ (i + 1))) →
      (Typing.closed ty).instances = ofTypes fun t => ∃ a b, t = Q a b := by
    intro i Q ty hty
    refine Typing.closed_instances fun t => ⟨?_, ?_⟩
    · rintro ⟨a, b, rfl⟩
      exact ⟨fun n => if n = i then a else b, by simp [hty]⟩
    · rintro ⟨θ, rfl⟩
      exact ⟨_, _, hty θ⟩
  have hints : ∀ k, (Typing.closed (.arrow (.product (List.replicate k .int)) .int)).instances =
      ofTypes fun t => t = .arrow (.product (List.replicate k .int)) .int := fun k =>
    Typing.closed_instances (by simp)
  rw [Table.mapValues, List.map_congr_left fun e he =>
    congrArg (fun S => (e.1, Typing.instances S)) (hresolved e he)]
  change ([_, _, _, _, _, _, _, _] : Table Instances) = [_, _, _, _, _, _, _, _]
  simp only [List.cons.injEq, Prod.mk.injEq, true_and, and_true]
  refine ⟨hints 2, hints 2, hints 2, hints 1, Typing.closed_instances (by simp), ?_, ?_, ?_⟩
  · exact hpair st.count fun θ => by simp [pairFn, Plain.pairFn]
  · exact hpair (st.count + 2) fun θ => by simp [pairFn, Plain.pairFn]
  · exact hpair (st.count + 4) fun θ => by simp [pairFn, Plain.pairFn]

/-! ### The seeded run -/

/-- The typing of a block with no statements so far, where some names are declared. -/
def startingWith (scope : Defined) : Typing := { Typing.closed .unit with defined := scope }

/-- Inference of a program's statements with the builtin names declared before the first one. -/
def seeded (ns : List (Tree Span)) : Infer Typing := do
  let scope ← prelude
  blockResult (startingWith scope) ns

/-- The instances of a block are what its statements allow. -/
theorem blockResult_iff {st : State} {scope : Defined} (h : Region Anywhere st)
    (hscope : ∀ e ∈ scope, e.2.All (Owns Anywhere st)) :
    (∃ T st' η, blockResult (startingWith scope) ns st = (.ok T, st') ∧ Solves η st'.subst ∧
      c = Uses.map (Ty.eval η) T.context ∧ t = T.ty.eval η) ↔
    Composes ns (Table.mapValues (fun S => (S.apply st.subst).instances) scope) [] .unit c t := by
  have hapart : Apart (st.count ≤ ·) st (startingWith scope) :=
    ⟨h.above, h.spares, Typing.all_closed.mp Owns.closed_unit, Uses.all_nil,
      fun e he => (hscope e he).imp fun _ ht => ht.spared⟩
  have hoffers := Typing.offers_apply st.subst (startingWith scope)
  constructor
  · rintro ⟨T, st', η, hres, hη, rfl, rfl⟩
    have hcomposes := blockResult_composes ns h hapart hres hη
    rw [hoffers] at hcomposes
    simpa [startingWith, Typing.closed] using hcomposes
  · intro hcomposes
    refine blockResult_composed ns h hapart (h.acyclic.solves_extend .var) ?_
    rw [hoffers]
    simpa [startingWith, Typing.closed] using hcomposes

theorem Tree.inferred_block_iff (l : Span) :
    (Tree.block l ns).inferred c t ↔ Composes ns [] [] .unit c t := by
  refine Iff.trans ?_ (blockResult_iff region_start fun e he => absurd he List.not_mem_nil)
  constructor
  · rintro ⟨T, st, hres, hct⟩
    obtain ⟨hev, -⟩ := Tree.result_apart region_start hres
    obtain ⟨η, hη, hc, ht⟩ := (Typing.instances_apply hev.region.acyclic).mp hct
    exact ⟨T, st, η, Tree.result_block l ns ▸ hres, hη, hc, ht⟩
  · rintro ⟨T, st, η, hres, hη, hc, ht⟩
    have hres' : (Tree.block l ns).result {} = (.ok T, st) := Tree.result_block l ns ▸ hres
    obtain ⟨hev, -⟩ := Tree.result_apart region_start hres'
    exact ⟨T, st, hres', (Typing.instances_apply hev.region.acyclic).mpr ⟨η, hη, hc, ht⟩⟩

theorem seeded_iff :
    (∃ S st η, seeded ns {} = (.ok S, st) ∧ Solves η st.subst ∧
      c = Uses.map (Ty.eval η) S.context ∧ t = S.ty.eval η) ↔
    Composes ns builtinInstances [] .unit c t := by
  obtain ⟨hev, howns⟩ := prelude_evolves region_start
  rw [← prelude_instances region_start, ← blockResult_iff hev.region howns]
  rfl

/-- The bindings after the seeded run are acyclic. -/
theorem seeded_acyclic {S : Typing} {st : State} (h : seeded ns {} = (.ok S, st)) :
    st.subst.Acyclic := by
  obtain ⟨hev, howns⟩ := prelude_evolves region_start
  have hstart : (startingWith (prelude {}).1).All (Owns Anywhere (prelude {}).2) :=
    Typing.all_iff.mpr ⟨Typing.all_closed.mp Owns.closed_unit, Uses.all_nil, howns⟩
  have hend := blockResult_evolves ns hev.region hstart
  rw [show blockResult (startingWith (prelude {}).1) ns (prelude {}).2 = (.ok S, st) from h] at hend
  exact hend.region.acyclic

/-- The seeded run allows what the program allows with shared builtin names. -/
theorem seeded_of_shared {l : Span} (h : (Tree.block l ns).inferred c t)
    (hshared : Shared builtinInstances c) :
    ∃ S st η, seeded ns {} = (.ok S, st) ∧ Solves η st.subst ∧ t = S.ty.eval η := by
  have hseeds : Seeds builtinInstances [] builtinInstances := fun name => rfl
  obtain ⟨c', hcomposes⟩ := ((Tree.inferred_block_iff l).mp h).seed hseeds hshared []
  obtain ⟨S, st, η, hres, hη, -, ht⟩ := seeded_iff.mpr hcomposes
  exact ⟨S, st, η, hres, hη, ht⟩

/-- The program allows what the seeded run allows, with instances of the builtin names. -/
theorem inferred_of_seeded {S : Typing} {st : State} {η : Nat → Plain}
    (hres : seeded ns {} = (.ok S, st)) (hη : Solves η st.subst) (l : Span) :
    ∃ c, (Tree.block l ns).inferred c (S.ty.eval η) ∧ Fits builtinInstances c := by
  have hseeds : Seeds builtinInstances [] builtinInstances := fun name => rfl
  have hcomposes := seeded_iff.mp ⟨S, st, η, hres, hη, rfl, rfl⟩
  have hnil : Fits builtinInstances [] := fun _ _ _ u hu => absurd hu List.not_mem_nil
  obtain ⟨c, hcomposes', hfits⟩ := hcomposes.unseed hseeds closed_builtinInstances hnil
  exact ⟨c, (Tree.inferred_block_iff l).mpr hcomposes', hfits⟩

/-! ### Builtin names in a check -/

section Resolution

variable {st resolved : State} {span : Span} {T : Typing} {unresolved : Context} {η : Nat → Plain}

/-- The builtin names are over new variables, apart from those of the program. -/
theorem prelude_apart (h : Region Anywhere st) :
    let K := fun n => n < st.count ∨ (prelude st).2.count ≤ n
    Region K (prelude st).2 ∧ (prelude st).2.subst.ClosedOn (fun n => ¬K n) ∧
      ∀ e ∈ (prelude st).1, e.2.All (Owns (¬K ·) (prelude st).2) := by
  obtain ⟨hev, howns⟩ := prelude_evolves h.above
  intro K
  refine ⟨⟨hev.region.acyclic, hev.region.allocated, fun n t _ hb w hw => ?_, fun n => Or.inr⟩,
    fun n t hn hb => ?_, fun e he => (howns e he).imp fun t ht w hw => ?_⟩
  · exact Or.inl ((h.allocated n t hb).2 w hw)
  · exact absurd (Or.inl (h.allocated n t hb).1) hn
  · exact ⟨fun hK => hK.elim (Nat.not_lt.mpr (ht w hw).1) (Nat.not_le.mpr (ht w hw).2), (ht w hw).2⟩

/-- Once the free names of a program are resolved, the uses of each builtin name are shared. -/
theorem shared_of_resolve (h : Region Anywhere st) (hT : Uses.All (Owns Anywhere st) T.context)
    (hres : resolve [] (prelude st).1 span T.context (prelude st).2 = (.ok unresolved, resolved))
    (hη : Solves η resolved.subst) : Shared builtinInstances (Uses.map (Ty.eval η) T.context) := by
  obtain ⟨hev, howns⟩ := prelude_evolves h
  -- what the run has unified is what the rules ask for
  have hrun := resolutionRun (prelude st).1 span (prelude st).1.length [] T.context []
    (prelude st).2
  have hallowed : Allowed id (prelude st).2 (prelude st).1 builtinInstances := by
    rw [← prelude_instances h]
    exact offers_rel fun _ _ _ => id
  rw [resolve_eq] at hres
  rcases hnames : resolveNames _ _ _ _ _ _ _ with ⟨⟨problem | ⟨⟩, out⟩, st'⟩ <;>
    rw [hnames] at hres hrun
  · cases hres
  · cases hres
    have hc : Uses.All (Owns Anywhere (prelude st).2) T.context := fun e he t ht =>
      (hT e he t ht).mono hev.count_le
    exact (hrun.settles hev.region howns hc hallowed rfl hη).shared closed_builtinInstances

/-- The free names of a program can be resolved if the uses of each builtin name are shared. -/
theorem resolve_of_shared (h : Region Anywhere st) (hT : Uses.All (Owns Anywhere st) T.context)
    (hη : Solves η st.subst) (hnodup : (Table.keys (Uses.map (Ty.eval η) T.context)).Nodup)
    (hshared : Shared builtinInstances (Uses.map (Ty.eval η) T.context)) (span : Span) :
    ∃ unresolved resolved η',
      resolve [] (prelude st).1 span T.context (prelude st).2 = (.ok unresolved, resolved) ∧
      Solves η' resolved.subst ∧ ∀ m < st.count, η' m = η m := by
  -- the builtin names are over variables of their own, so resolving them binds none of the
  -- program's
  obtain ⟨hregion, houtside, howns⟩ := prelude_apart h
  obtain ⟨hev, -⟩ := prelude_evolves h
  have hrun := resolutionRun (prelude st).1 span (prelude st).1.length [] T.context []
    (prelude st).2
  have hcovered : Covered id (prelude st).2 (prelude st).1 builtinInstances := by
    rw [← prelude_instances h]
    exact offers_rel fun _ _ _ => id
  have hc : Uses.All (Owns (fun n => n < st.count ∨ (prelude st).2.count ≤ n) (prelude st).2)
      T.context := fun e he t ht w hw =>
    ⟨Or.inl (hT e he t ht w hw).2, lt_of_lt_of_le (hT e he t ht w hw).2 hev.count_le⟩
  -- the rules resolve the names, and the run follows every choice of instances
  obtain ⟨out', hsettles⟩ := Settles.of_shared hshared hnodup []
  obtain ⟨hok, η', hη', hagree, -⟩ := hrun.complete
    ⟨hregion, houtside, hc, Uses.all_nil, howns, hcovered,
      ⟨by simp, List.nodup_nil, by simp, Nat.zero_add _⟩, hη⟩ hsettles
  rcases hnames : resolveNames _ _ _ _ _ _ _ with ⟨⟨r, out⟩, resolved⟩
  rw [hnames] at hok hη'
  obtain rfl : r = .ok () := hok
  refine ⟨out, resolved, η', ?_, hη', fun m hm => hagree m (lt_of_lt_of_le hm hev.count_le)⟩
  rw [resolve_eq, hnames]

end Resolution

/-- A check finds only types that the program has with shared builtin names. -/
theorem shared_of_check [Alphabet] {source : String} {l : Span} {p : Checked} {events : List Event}
    (hparse : parse source = .ok (.block l ns)) (hcheck : check true source = (.ok p, events))
    (θ : Nat → Plain) :
    ∃ c, (Tree.block l ns).inferred c ((p.state.subst.apply p.typing.ty).eval θ) ∧
      Shared builtinInstances c := by
  obtain ⟨tree, T, root, st, st', hparse', hinfer, hrest⟩ := check_run hcheck
  obtain rfl : tree = .block l ns := Except.ok.inj (hparse'.symm.trans hparse)
  obtain ⟨scope, st₁, unresolved, resolved, hscope, hresolve, rfl⟩ := checkInferred_run hrest
  obtain ⟨hev, htyping⟩ := checkResolved_apply region_start hinfer hscope hresolve
  have hty := congrArg Typing.ty htyping
  rw [Typing.apply, Typing.apply, Typing.mapTypes_ty, Typing.mapTypes_ty] at hty
  obtain ⟨hev₀, hT⟩ := infer_unmarked_evolves region_start hinfer
  -- the bindings at the end, with any types for the variables that are left, solve the state
  have hη := hev.region.acyclic.solves_extend θ
  have hlogged := State.logged_evolves hev₀.region.all (.inferred st.count T.context.length)
  refine ⟨Uses.map (Ty.eval (resolved.subst.extend θ)) T.context, ⟨T, st, ?_, ?_⟩, ?_⟩
  · exact Tree.result_of_infer hinfer
  -- they solved the state after inference too, so the type is an instance of what was found
  · refine (Typing.instances_apply hev₀.region.acyclic).mpr ⟨_, hev.solves _ hη, rfl, ?_⟩
    change (Subst.apply _ T.ty).eval θ = _
    rw [hty, hev.region.acyclic.eval_extend]
  · cases hscope
    refine shared_of_resolve hlogged.region (fun e he t ht => ?_) hresolve hη
    exact ((Typing.all_iff.mp (hT T rfl)).2.1 e he t ht).anywhere

/-- A check finds types without unknown constructors. -/
theorem known_of_check [Alphabet] {withPrelude : Bool} {source : String} {p : Checked}
    {events : List Event} (hcheck : check withPrelude source = (.ok p, events)) :
    (p.state.subst.apply p.typing.ty).untagged.Known := by
  obtain ⟨tree, T, root, st, st', -, hinfer, hrest⟩ := check_run hcheck
  obtain ⟨scope, st₁, unresolved, resolved, hscope, hresolve, rfl⟩ := checkInferred_run hrest
  obtain ⟨-, htyping⟩ := checkResolved_apply region_start hinfer hscope hresolve
  obtain ⟨V, hV⟩ := resolve_madeOf region_start hinfer (Or.inl trivial) hscope hresolve
  rw [← htyping, Typing.all_iff, Typing.apply, Typing.mapTypes_ty] at hV
  exact hV.1.known

/-- A check finds all types that the program has with shared builtin names. -/
theorem check_of_shared [Alphabet] {source : String} {l : Span}
    (hparse : parse source = .ok (.block l ns)) (h : (Tree.block l ns).inferred c t)
    (hshared : Shared builtinInstances c) :
    ∃ p events θ, check true source = (.ok p, events) ∧
      t = (p.state.subst.apply p.typing.ty).eval θ := by
  -- the uses of a name are collected in one entry, which is what lets them share an instance
  have hnodup := ((Tree.inferred_block_iff l).mp h).nodup_keys List.nodup_nil
  obtain ⟨T, st, hres, hct⟩ := h
  rcases hinfer : infer (Tree.block l ns).unmarked {} with ⟨⟨r, root⟩, st'⟩
  rw [Tree.result_of_infer hinfer] at hres
  cases hres
  obtain ⟨hev₀, hT⟩ := infer_unmarked_evolves region_start hinfer
  obtain ⟨η, hη, rfl, rfl⟩ := (Typing.instances_apply hev₀.region.acyclic).mp hct
  have hlogged := State.logged_evolves hev₀.region.all (.inferred st.count T.context.length)
  obtain ⟨hty, hcontext, -⟩ := Typing.all_iff.mp ((hT T rfl).imp fun _ ht => ht.anywhere)
  -- the types that the program takes can be kept while the builtin names are resolved
  obtain ⟨unresolved, resolved, η', hresolve, hη', hagree⟩ :=
    resolve_of_shared hlogged.region hcontext hη hnodup hshared root.label.span
  have hscope : builtins true (st.logged (.inferred st.count T.context.length)) =
    prelude (st.logged (.inferred st.count T.context.length)) := rfl
  obtain ⟨_, hrest⟩ := checkInferred_of_resolve hscope hresolve
  obtain ⟨hev, htyping⟩ := checkResolved_apply region_start hinfer hscope hresolve
  refine ⟨_, _, η', check_of_infer hparse hinfer hrest, ?_⟩
  have hend := congrArg Typing.ty htyping
  rw [Typing.apply, Typing.apply, Typing.mapTypes_ty, Typing.mapTypes_ty] at hend
  change _ = (Subst.apply _ T.ty).eval η'
  -- the type at the end is the one after inference, up to what was bound since
  rw [hend, hη'.eval_apply hev.region.acyclic, hty.eval_eq hagree]

/-! ### When builtin names are as polymorphic as declared ones -/

/-- A program passes its check, and its type has the given text. -/
def ChecksAs [Alphabet] (source text : String) : Prop :=
  ∃ p events, check true source = (.ok p, events) ∧ p.programType = text

theorem checksAs_iff [Alphabet] {source text : String} {tree : Tree Span}
    (hparse : parse source = .ok tree) :
    ChecksAs source text ↔
      (checkTree true tree {}).1.toOption.map Checked.programType = some text := by
  rw [← check_toOption hparse, Option.map_eq_some_iff]
  constructor
  · rintro ⟨p, events, hcheck, htext⟩
    exact ⟨p, by rw [hcheck]; rfl, htext⟩
  · rintro ⟨p, hp, htext⟩
    rcases hcheck : check true source with ⟨fault | p', events⟩ <;> rw [hcheck] at hp <;> cases hp
    exact ⟨p, events, hcheck, htext⟩

/-- Uses that are instances are shared if no polymorphic builtin name has two of them. -/
theorem Fits.shared (h : Fits builtinInstances c)
    (honce : ∀ name ∈ ["fst", "snd", "swap"], (Uses.of c name).length ≤ 1) :
    Shared builtinInstances c := by
  -- each of the other builtin names has one type only
  have hmono : ∀ e ∈ builtinTypes,
      e.1 ∈ ["fst", "snd", "swap"] ∨ ∃ t, e.2 t ∧ ∀ u, e.2 u → u = t := by
    simp [builtinTypes]
  intro name i hi
  obtain ⟨P, hP, rfl⟩ := get?_builtinInstances hi
  rcases hmono _ hP with hpoly | ⟨t, ht, honly⟩
  · have hlength := honce name hpoly
    -- of no use or one, the instance can be chosen
    cases hof : Uses.of c name with
    | nil =>
      obtain ⟨⟨t, ht⟩, -⟩ := closed_builtinInstances name _ hi
      exact ⟨t, ht, by simp⟩
    | cons u us =>
      rw [hof] at hlength
      obtain rfl : us = [] := List.length_eq_zero_iff.mp (by simpa using hlength)
      exact ⟨u, h name _ hi u (by simp [hof]), by simp⟩
  · exact ⟨t, ⟨rfl, ht⟩, fun u hu => honly u (h name _ hi u hu).2⟩

section Agreement

variable {source : String} {l : Span} {S : Typing} {st : State}

/-- The type that a check finds is an instance of the type of the seeded run. -/
theorem check_instance_seeded [Alphabet] (hparse : parse source = .ok (.block l ns))
    (hseeded : seeded ns {} = (.ok S, st)) {p : Checked} {events : List Event}
    (hcheck : check true source = (.ok p, events)) :
    ∃ θ, (st.subst.apply S.ty).eval θ = (p.state.subst.apply p.typing.ty).untagged := by
  obtain ⟨c, hinferred, hshared⟩ := shared_of_check hparse hcheck .var
  obtain ⟨S', st', η, hres, hη, hty⟩ := seeded_of_shared hinferred hshared
  rw [hseeded] at hres
  cases hres
  exact ⟨η, by rw [hη.eval_apply (seeded_acyclic hseeded), ← hty, Ty.eval_eq_untagged]⟩

/-- A check that finds the type of the seeded run finds it for shared builtin names. -/
theorem shared_of_checksAs [Alphabet] (hparse : parse source = .ok (.block l ns))
    (hseeded : seeded ns {} = (.ok S, st)) (h : ChecksAs source (st.subst.apply S.ty).text) :
    ∃ c, (Tree.block l ns).inferred c (st.subst.apply S.ty).untagged ∧
      Shared builtinInstances c := by
  obtain ⟨p, events, hcheck, htext⟩ := h
  obtain ⟨θ, hθ⟩ := check_instance_seeded hparse hseeded hcheck
  -- the two types have one text, so one is the other with other variables
  have hvariant := Ty.variant_of_text hθ (known_of_check hcheck) htext.symm
  obtain ⟨ζ, hζ⟩ := hvariant.exists_eval
  rw [← hζ]
  exact shared_of_check hparse hcheck ζ

/-- A check finds the type of the seeded run if the program has it for shared builtin names. -/
theorem checksAs_of_shared [Alphabet] (hparse : parse source = .ok (.block l ns))
    (hseeded : seeded ns {} = (.ok S, st))
    (h : (Tree.block l ns).inferred c (st.subst.apply S.ty).untagged)
    (hshared : Shared builtinInstances c) : ChecksAs source (st.subst.apply S.ty).text := by
  obtain ⟨p, events, θ, hcheck, hty⟩ := check_of_shared hparse h hshared
  obtain ⟨ζ, hζ⟩ := check_instance_seeded hparse hseeded hcheck
  exact ⟨p, events, hcheck, (Ty.variant_of_eval hζ hty.symm).text_eq⟩

/-- **Builtin names are as polymorphic as declared ones if and only if each of them can have one
type for all its uses**, where the program has the type of the seeded run for these uses.  Inference
takes every program that the seeded run takes, and the two agree where no polymorphic builtin name
is used twice. -/
theorem checksAs_seeded_iff [Alphabet] (hparse : parse source = .ok (.block l ns))
    (hseeded : seeded ns {} = (.ok S, st)) :
    (ChecksAs source (st.subst.apply S.ty).text ↔
      ∃ c, (Tree.block l ns).inferred c (st.subst.apply S.ty).untagged ∧
        Shared builtinInstances c) ∧
    ∃ T st', (Tree.block l ns).result {} = (.ok T, st') ∧
      ((∀ name ∈ ["fst", "snd", "swap"], (Uses.of T.context name).length ≤ 1) →
        ChecksAs source (st.subst.apply S.ty).text) := by
  have hst := seeded_acyclic hseeded
  obtain ⟨c, hinferred, hfits⟩ := inferred_of_seeded hseeded (hst.solves_extend .var) l
  rw [hst.eval_extend, Ty.eval_eq_untagged] at hinferred
  obtain ⟨T, st', hres, η, rfl, -⟩ := id hinferred
  refine ⟨⟨shared_of_checksAs hparse hseeded, ?_⟩, T, st', hres, fun honce => ?_⟩
  · rintro ⟨c, hc, hshared⟩
    exact checksAs_of_shared hparse hseeded hc hshared
  · refine checksAs_of_shared hparse hseeded hinferred (hfits.shared ?_)
    simpa [Typing.apply, Uses.of_map, Context.mapTypes_eq] using honce

end Agreement

/-- A builtin name that is used twice, at one type. -/
theorem checksAs_seeded_iff_repeated :
    ∃ l ns S st, parse "fst((1, 2)); fst((3, 4))" = .ok (.block l ns) ∧
      seeded ns {} = (.ok S, st) ∧
      ∃ c, (Tree.block l ns).inferred c (st.subst.apply S.ty).untagged ∧
        Shared builtinInstances c := by
  let l : Span := ⟨0, 24⟩
  let ns : List (Tree Span) := [
    .apply ⟨0, 11⟩ (.var ⟨0, 3⟩ "fst")
      (.tuple ⟨3, 11⟩ [.tuple ⟨4, 10⟩ [.int ⟨5, 6⟩ 1, .int ⟨8, 9⟩ 2]]),
    .apply ⟨13, 24⟩ (.var ⟨13, 16⟩ "fst")
      (.tuple ⟨16, 24⟩ [.tuple ⟨17, 23⟩ [.int ⟨18, 19⟩ 3, .int ⟨21, 22⟩ 4]])]
  have hparse : parse "fst((1, 2)); fst((3, 4))" = .ok (.block l ns) := by cbv
  have hseeded : ((seeded ns {}).1.toOption.map fun S =>
      ((seeded ns {}).2.subst.apply S.ty).text) = some "Int" := by decide +kernel
  have hchecks : (checkTree true (.block l ns) {}).1.toOption.map Checked.programType =
      some "Int" := by decide +kernel
  clear_value l ns
  rcases hrun : seeded ns {} with ⟨problem | S, st⟩ <;> rw [hrun] at hseeded
  · cases hseeded
  · have htext : (st.subst.apply S.ty).text = "Int" := Option.some.inj hseeded
    have hagrees : ChecksAs "fst((1, 2)); fst((3, 4))" (st.subst.apply S.ty).text :=
      (checksAs_iff hparse).mpr (htext ▸ hchecks)
    exact ⟨l, ns, S, st, hparse, hrun, (checksAs_seeded_iff hparse hrun).1.mp hagrees⟩

/-- **Builtin names are not as polymorphic as declared ones.**  A builtin name that is used at two
types is refused, and one that is used in a function has the type of its other uses there. -/
theorem builtins_not_polymorphic :
    (∃ l ns S st, parse "fst((1, 2)); fst(((), 1))" = .ok (.block l ns) ∧
      seeded ns {} = (.ok S, st) ∧ ∀ text, ¬ChecksAs "fst((1, 2)); fst(((), 1))" text) ∧
    ∃ l ns S st, parse "fst((1, 2)); fn(p) fst(p)" = .ok (.block l ns) ∧
      seeded ns {} = (.ok S, st) ∧ (st.subst.apply S.ty).text = "((a, b)) -> a" ∧
      ChecksAs "fst((1, 2)); fn(p) fst(p)" "((Int, Int)) -> Int" := by
  let first : Tree Span := .apply ⟨0, 11⟩ (.var ⟨0, 3⟩ "fst")
    (.tuple ⟨3, 11⟩ [.tuple ⟨4, 10⟩ [.int ⟨5, 6⟩ 1, .int ⟨8, 9⟩ 2]])
  constructor
  · let ns : List (Tree Span) := [first, .apply ⟨13, 25⟩ (.var ⟨13, 16⟩ "fst")
      (.tuple ⟨16, 25⟩ [.tuple ⟨17, 24⟩ [.tuple ⟨18, 20⟩ [], .int ⟨22, 23⟩ 1]])]
    have hparse : parse "fst((1, 2)); fst(((), 1))" = .ok (.block ⟨0, 25⟩ ns) := by cbv
    have hseeded : (seeded ns {}).1.isOk = true := by decide +kernel
    have hchecks : (checkTree true (.block ⟨0, 25⟩ ns) {}).1.toOption.map Checked.programType =
        none := by decide +kernel
    clear_value ns
    rcases hrun : seeded ns {} with ⟨problem | S, st⟩ <;> rw [hrun] at hseeded
    · cases hseeded
    · refine ⟨_, ns, S, st, hparse, hrun, fun text => ?_⟩
      rw [checksAs_iff hparse, hchecks]
      exact (Option.some_ne_none text).symm
  · let ns : List (Tree Span) := [first, .fn ⟨13, 25⟩ ["p"]
      (.apply ⟨19, 25⟩ (.var ⟨19, 22⟩ "fst") (.tuple ⟨22, 25⟩ [.var ⟨23, 24⟩ "p"]))]
    have hparse : parse "fst((1, 2)); fn(p) fst(p)" = .ok (.block ⟨0, 25⟩ ns) := by cbv
    have hseeded : ((seeded ns {}).1.toOption.map fun S =>
        ((seeded ns {}).2.subst.apply S.ty).text) = some "((a, b)) -> a" := by decide +kernel
    have hchecks : (checkTree true (.block ⟨0, 25⟩ ns) {}).1.toOption.map Checked.programType =
        some "((Int, Int)) -> Int" := by decide +kernel
    clear_value ns
    rcases hrun : seeded ns {} with ⟨problem | S, st⟩ <;> rw [hrun] at hseeded
    · cases hseeded
    · exact ⟨_, ns, S, st, hparse, hrun, Option.some.inj hseeded, (checksAs_iff hparse).mpr hchecks⟩

end LetTyping
