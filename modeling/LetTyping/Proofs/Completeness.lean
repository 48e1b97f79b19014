import LetTyping.Proofs.Soundness

/-!
# Inference is complete

A derivation by the typing rules is followed by inference step by step.  A solution of the bindings
so far extends to the variables that a step allocates, with the types that the derivation has; so
no unification fails, and what is inferred is at least as general as what is derived.

Two things could go wrong on the way.  The typings of declared names must not become more special
by what happens to the uses of other names: they are kept apart, in that no binding is made for
their variables.  And the resolution of names must not meet a name that is being resolved: the
derivation resolves the same names, and it is finite.

## Main definitions

* `General` — every derivation for a node is an instance of a typing.
* `Covered` — every instance of a declared name is an instance of its typing.
* `Leads` — a declared name is used in the declaration of another.

## Main results

* `bindParams_complete`, `ResolutionRun.complete` — the rules of inference follow the typing rules.
* `Settles.acc` — a name that can be resolved does not lead back to itself.
-/

namespace LetTyping

variable {α V : Type} {ι : V → Instances} {K M : Nat → Prop} {st st' : State} {η : Nat → Plain}

/-! ### Instances -/

/-- The types of an instance's variables may be chosen. -/
theorem instantiate_complete (h : Region K st) {T : Typing} (hT : T.All (Owns Anywhere st))
    (hη : Solves η st.subst) (θ : Nat → Plain) :
    ∃ η', Solves η' (instantiate T st).2.subst ∧ (∀ m < st.count, η' m = η m) ∧
      (instantiate T st).1.ty.eval η' = (T.apply st.subst).ty.eval θ ∧
      Uses.map (Ty.eval η') (instantiate T st).1.context =
        Uses.map (Ty.eval θ) (T.apply st.subst).context := by
  obtain ⟨-, -, -, heq⟩ := instantiate_evolves h hT
  obtain ⟨η', hold, hnew⟩ := (T.apply st.subst).exists_assignment st.count η θ
  obtain ⟨hty, hcontext, -⟩ := Typing.all_iff.mp (T.apply st.subst).all_mem_ids
  have heval : ∀ t : Ty, (∀ w ∈ t.ids, w ∈ (T.apply st.subst).ids) →
      Ty.eval η' (t.map (TVar.renumber st.count (T.apply st.subst).freeVars)) = t.eval θ := by
    intro t ht
    rw [Typing.eval_renumber]
    exact Ty.eval_congr fun m hm => hnew m (ht m hm)
  refine ⟨η', h.solves_congr hη hold, hold, ?_, ?_⟩
  · rw [heq, Typing.renumber, Typing.mapTypes_ty, heval _ hty]
  · rw [heq, Typing.renumber, Typing.mapTypes_context, Uses.map_map]
    exact Uses.map_congr fun e he t ht => heval t (hcontext e he t ht)

/-! ### Parameters -/

/-- Parameters get types as general as those that are derived. -/
theorem bindParams_complete (span : Span) (params : List String) :
    ∀ {context : Context} {st : State} {η : Nat → Plain}, Region K st →
      Uses.All (Owns K st) context → Solves η st.subst → ∀ {us c'},
      Binds params (Uses.map (Ty.eval η) context) us c' →
      ∃ ts c st' η', bindParams span params context st = (.ok (ts, c), st') ∧
        Solves η' st'.subst ∧ (∀ m < st.count, η' m = η m) ∧ us = ts.map (Ty.eval η') ∧
        c' = Uses.map (Ty.eval η') c := by
  induction params with
  | nil =>
    intro context st η _ _ hη us c' hbinds
    cases hbinds
    exact ⟨[], context, st, η, bindParams_nil span context st, hη, fun _ _ => rfl, rfl, rfl⟩
  | cons param params ih =>
    intro context st η h hc hη us c' hbinds
    cases hbinds with
    | @cons _ _ _ u us _ huses hrest =>
      -- the fresh variable gets the type of the parameter
      let η₀ : Nat → Plain := fun m => if m < st.count then η m else u
      have hold : ∀ m < st.count, η₀ m = η m := fun m hm => if_pos hm
      have hvar : η₀ st.count = u := if_neg (lt_irrefl _)
      have h₀ := State.next_evolves h
      have hc₀ : Uses.All (Owns K st.next) context := fun e he t ht =>
        (hc e he t ht).mono h₀.count_le
      have hη₀ : Solves η₀ st.next.subst := h.solves_congr hη hold
      have hmap₀ : Uses.map (Ty.eval η₀) context = Uses.map (Ty.eval η) context :=
        Owns.map_eval_eq hc hold
      have hall : ∀ use ∈ Uses.of context param,
          Ty.eval η₀ (.var ⟨st.count, none⟩) = use.eval η₀ := by
        intro use huse
        rw [Ty.eval_var, hvar]
        refine (huses _ ?_).symm
        rw [← hmap₀, Uses.of_map]
        exact List.mem_map_of_mem huse
      have h₁ := equateAll_evolves span (parameterOf param) h₀.region (h.owns_var none)
        (hc₀.of param)
      obtain ⟨-, hspec⟩ := equateAll_spec h₀.region.acyclic span (parameterOf param)
        (.var ⟨st.count, none⟩) (Uses.of context param)
      rw [bindParams_cons, Context.uses_eq]
      rcases heq : equateAll span (parameterOf param) (.var ⟨st.count, none⟩)
        (Uses.of context param) st.next with ⟨problem | _, st₁⟩ <;> rw [heq] at h₁ hspec
      · exact absurd hall (hspec η₀ hη₀)
      · have hη₁ : Solves η₀ st₁.subst := (hspec η₀).mpr ⟨hη₀, hall⟩
        rw [← hmap₀, ← Uses.map_erase] at hrest
        obtain ⟨ts, c, st₂, η', hres, hη', hagree, rfl, rfl⟩ := ih h₁.region
          (Uses.All.erase (fun e he t ht => (hc₀ e he t ht).mono h₁.count_le) param) hη₁ hrest
        have hlt : st.count < st₁.count := lt_of_lt_of_le (Nat.lt_succ_self _) h₁.count_le
        refine ⟨.var ⟨st.count, none⟩ :: ts, c, st₂, η', by simp only [hres], hη',
          fun m hm => ?_, ?_, rfl⟩
        · rw [hagree m (lt_trans hm hlt), hold m hm]
        · rw [List.map_cons, Ty.eval_var, hagree st.count hlt, hvar]

/-! ### General typings -/

/-- Every derivation for a node is an instance of a typing, and so is every derivation for a value
that the node declares, of the typing that is declared for it. -/
inductive General : Tree α → Typing → Prop
  | intro {n : Tree α} {R : Typing}
      (covers : ∀ c t d, Derives n c t d →
        ∃ θ, c = Uses.map (Ty.eval θ) R.context ∧ t = R.ty.eval θ)
      (names : Table.keys R.defined = Table.keys n.declared)
      (values : ∀ e ∈ R.defined.zip n.declared, General e.2.2 e.1.2) : General n R

theorem general_iff {n : Tree α} {R : Typing} :
    General n R ↔
      (∀ c t d, Derives n c t d → ∃ θ, c = Uses.map (Ty.eval θ) R.context ∧ t = R.ty.eval θ) ∧
        Table.Rel (fun S v => General v S) R.defined n.declared := by
  rw [Table.Rel.iff_zip]
  constructor
  · rintro ⟨covers, names, values⟩
    exact ⟨covers, names, values⟩
  · rintro ⟨covers, names, values⟩
    exact ⟨covers, names, values⟩

/-- Replacing the variables of a general typing leaves it general, if any types for the old
variables can be had from types for the new ones. -/
theorem General.mapTypes {n : Tree α} {R : Typing} (h : General n R) {P : Ty → Prop}
    (hP : R.All P) {g : Ty → Ty} (hg : ∀ θ, ∃ ζ, ∀ t, P t → Ty.eval ζ (g t) = t.eval θ) :
    General n (R.mapTypes g) := by
  induction R using Typing.induction generalizing n with
  | mk ty context defined ih =>
    obtain ⟨hPty, hPcontext, hPdefined⟩ := Typing.all_iff.mp hP
    obtain ⟨hcovers, hdefined⟩ := general_iff.mp h
    rw [general_iff, Typing.mapTypes_defined, Table.Rel.mapValues_iff, Typing.mapTypes_context,
      Typing.mapTypes_ty]
    refine ⟨fun c t d hd => ?_, hdefined.imp fun e he v hv => ih e he hv (hPdefined e he)⟩
    obtain ⟨θ, rfl, rfl⟩ := hcovers c t d hd
    obtain ⟨ζ, hζ⟩ := hg θ
    refine ⟨ζ, ?_, (hζ ty hPty).symm⟩
    rw [Uses.map_map]
    exact Uses.map_congr fun e he t ht => (hζ t (hPcontext e he t ht)).symm

/-- The declared typings are general for the declared values. -/
def GeneralDefined (st : State) (defined : Defined) (d : Table (Tree α)) : Prop :=
  Table.Rel (fun S v => General v (S.apply st.subst)) defined d

/-- What is declared has no other instances than the declared typings. -/
def Covered (ι : V → Instances) (st : State) (defined : Defined) (d : Table V) : Prop :=
  Table.Rel (fun S v => ∀ c t, ι v c t → (S.apply st.subst).instances c t) defined d

/-- What is declared stays covered when no binding is made for the variables of its typings. -/
theorem Covered.mono {defined : Defined} {d : Table V} (h : Covered ι st defined d)
    (hs : st.subst.Acyclic) (hout : st.subst.ClosedOn fun n => ¬K n)
    (hdef : ∀ e ∈ defined, e.2.All (Owns (¬K ·) st)) (hev : Evolves K st st') :
    Covered ι st' defined d :=
  Table.Rel.imp h fun e he v hv => by rwa [hev.apply_spared hs hout (hdef e he)]

theorem GeneralDefined.covered {defined : Defined} {d : Table (Tree α)}
    (h : GeneralDefined st defined d) : Covered Tree.instances st defined d :=
  Table.Rel.imp h fun _ _ _ hv c t hct => by
    obtain ⟨d', hd'⟩ := hct
    exact (general_iff.mp hv).1 c t d' hd'

/-! ### Names that lead to other names -/

/-- The name `y` is used in the declaration of `x`. -/
def Leads (defined : Defined) (x y : String) : Prop :=
  ∃ S, Table.get? defined x = some S ∧ y ∈ Table.keys S.context

/-- **A name that can be resolved does not lead back to itself**: from it, every way along uses in
declarations ends. -/
theorem Settles.acc {defined : Defined} {d : Table V} (hcovered : Covered ι st defined d)
    {c out out' : Uses Plain} (h : Settles ι d c out out') :
    ∀ x ∈ Table.keys c, Acc (fun y x => Leads defined x y) x := by
  induction h with
  | nil => exact fun x hx => absurd hx List.not_mem_nil
  | undeclared hget _ ih =>
    intro x hx
    rcases List.mem_cons.mp hx with rfl | hx
    · refine Acc.intro _ fun y ⟨S, hS, _⟩ => ?_
      rcases Table.Rel.get? hcovered x with ⟨hnone, -⟩ | ⟨_, _, _, hv, -⟩
      · rw [hS] at hnone
        cases hnone
      · rw [hget] at hv
        cases hv
    · exact ih x hx
  | @declared _ _ _ _ c' t _ _ _ hget hinstance _ _ _ ih ihrest =>
    intro x hx
    rcases List.mem_cons.mp hx with rfl | hx
    · refine Acc.intro _ fun y ⟨S, hS, hy⟩ => ih y ?_
      rcases Table.Rel.get? hcovered x with ⟨hnone, -⟩ | ⟨S', v, hS', hv, hinstances⟩
      · rw [hS] at hnone
        cases hnone
      · -- an instance uses the names that the declared typing uses
        rw [hget] at hv
        rw [hS] at hS'
        cases hv
        cases hS'
        obtain ⟨θ, rfl, -⟩ := hinstances c' t hinstance
        rwa [Typing.apply, Typing.mapTypes_context, Uses.keys_map, Uses.keys_map]
    · exact ihrest x hx

/-- What is left after finitely many steps whichever way they go does not lead back to itself. -/
theorem not_transGen_of_acc {α : Type} {r : α → α → Prop} {x : α} (h : Acc (fun y x => r x y) x) :
    ¬Relation.TransGen r x x := by
  have key : ∀ y, Acc (Relation.TransGen fun y x => r x y) y →
      ¬Relation.TransGen (fun y x => r x y) y y := by
    intro y hy
    induction hy with
    | intro y _ ih => exact fun hloop => ih y hloop hloop
  exact fun hloop => key x h.transGen (Relation.transGen_swap.mpr hloop)

/-! ### Resolving names -/

/-- A declared name with a given instance: the instance of its typing can be given the same types,
and these are the types of the uses. -/
theorem instance_complete {name : String} {S : Typing} {span : Span}
    {uses : List Ty} {result : Except Problem Unit} {st₁ : State} (h : Region K st)
    (hS : S.All (Owns Anywhere st)) (huses : ∀ t ∈ uses, Owns K st t) (hη : Solves η st.subst)
    {c : Uses Plain} {t : Plain} (hinstance : (S.apply st.subst).instances c t)
    (hts : ∀ u ∈ uses.map (Ty.eval η), u = t)
    (heq : equateAll span (useOf name) (instantiate S st).1.ty uses
      ((instantiate S st).2.logged (.resolved name uses.length)) = (result, st₁)) :
    result = .ok () ∧ ∃ η', Solves η' st₁.subst ∧ (∀ m < st.count, η' m = η m) ∧
      Uses.map (Ty.eval η') (instantiate S st).1.context = c := by
  obtain ⟨θ, rfl, rfl⟩ := hinstance
  obtain ⟨η', hη', hagree, hty, hcontext⟩ := instantiate_complete h hS hη θ
  have hall : ∀ use ∈ uses, (instantiate S st).1.ty.eval η' = use.eval η' := by
    intro use huse
    rw [hty, (huses use huse).eval_eq hagree]
    exact (hts _ (List.mem_map_of_mem huse)).symm
  have hs : ((instantiate S st).2.logged (.resolved name uses.length)).subst.Acyclic := h.acyclic
  obtain ⟨-, hspec⟩ := equateAll_spec hs span (useOf name) (instantiate S st).1.ty uses
  rw [heq] at hspec
  cases result with
  | error problem => exact absurd hall (hspec η' hη')
  | ok _ => exact ⟨rfl, η', (hspec η').mpr ⟨hη', hall⟩, hagree, hcontext⟩

/-- What the names that are being resolved have to do with the names of a context: they lead to
them, they are declared, and they leave room for as many more names as are allowed. -/
structure Chained (defined : Defined) (depth : Nat) (chain : List String) (names : List String) :
    Prop where
  leads : ∀ z ∈ chain, ∀ x ∈ names, Relation.TransGen (Leads defined) z x
  nodup : chain.Nodup
  declared : ∀ z ∈ chain, z ∈ Table.keys defined
  room : chain.length + depth = defined.length

namespace Chained

variable {defined : Defined} {depth : Nat} {chain names : List String} {x : String}

theorem tail (h : Chained defined depth chain (x :: names)) : Chained defined depth chain names :=
  ⟨fun z hz y hy => h.leads z hz y (List.mem_cons_of_mem _ hy), h.nodup, h.declared, h.room⟩

/-- The names in the declaration of the next name. -/
theorem push (h : Chained defined (depth + 1) chain (x :: names)) (hx : x ∉ chain) {S : Typing}
    (hget : Table.get? defined x = some S) :
    Chained defined depth (x :: chain) (Table.keys S.context) where
  -- all names in the chain lead to the new name, and the new name to those of its declaration
  leads := by
    intro z hz y hy
    have hxy : Leads defined x y := ⟨S, hget, hy⟩
    rcases List.mem_cons.mp hz with rfl | hz
    · exact .single hxy
    · exact .tail (h.leads z hz x List.mem_cons_self) hxy
  nodup := List.nodup_cons.mpr ⟨hx, h.nodup⟩
  declared := by
    intro z hz
    rcases List.mem_cons.mp hz with rfl | hz
    · exact List.mem_map_of_mem (Table.mem_of_get? hget)
    · exact h.declared z hz
  -- the chain grows as the depth that is left shrinks
  room := by
    have := h.room
    rw [List.length_cons]
    omega

/-- When there is no room left, all the declared names are being resolved. -/
theorem full (h : Chained defined 0 chain names) (hx : x ∈ Table.keys defined) : x ∈ chain := by
  by_contra hnot
  have hnodup : (x :: chain).Nodup := List.nodup_cons.mpr ⟨hnot, h.nodup⟩
  have hsubset : x :: chain ⊆ Table.keys defined := List.cons_subset.mpr ⟨hx, h.declared⟩
  have hlen := hnodup.length_le_of_subset hsubset
  have hroom := h.room
  rw [List.length_cons, Table.keys, List.length_map] at hlen
  omega

/-- A name that does not lead back to itself is not being resolved, and there is room for it. -/
theorem not_recursive (h : Chained defined depth chain (x :: names))
    (hacc : Acc (fun y x => Leads defined x y) x) {S : Typing}
    (hget : Table.get? defined x = some S) : ¬(x ∈ chain ∨ depth = 0) := by
  have hx : x ∉ chain := fun hx =>
    not_transGen_of_acc hacc (h.leads x hx x List.mem_cons_self)
  rintro (hmem | rfl)
  · exact hx hmem
  · exact hx (h.full (List.mem_map_of_mem (Table.mem_of_get? hget)))

end Chained

theorem Settles.declared_inv {d : Table V} {name : String} {v : V}
    (hget : Table.get? d name = some v) {ts : List Plain} {c out out' : Uses Plain}
    (h : Settles ι d ((name, ts) :: c) out out') :
    ∃ c' t out₁, ι v c' t ∧ (∀ u ∈ ts, u = t) ∧ Settles ι d c' out out₁ ∧
      Settles ι d c out₁ out' := by
  cases h with
  | undeclared hnone _ =>
    rw [hget] at hnone
    cases hnone
  | declared hv hinstance hts hc' hc =>
    rw [hget] at hv
    cases hv
    exact ⟨_, _, _, hinstance, hts, hc', hc⟩

theorem Evolves.closedOn_outside (h : Evolves K st st')
    (houtside : st.subst.ClosedOn fun n => ¬K n) : st'.subst.ClosedOn fun n => ¬K n :=
  fun n t hn hb => houtside n t hn ((h.kept n hn).symm.trans hb)

/-- Everything that following given instances relies on while names are resolved: the uses are over
the region, the declarations are outside of it, and the bindings have a solution. -/
structure Resolving (ι : V → Instances) (K : Nat → Prop) (defined : Defined) (d : Table V)
    (depth : Nat) (chain : List String) (context out : Context) (st : State) (η : Nat → Plain) :
    Prop where
  region : Region K st
  outside : st.subst.ClosedOn fun n => ¬K n
  owns : Uses.All (Owns K st) context
  out_owns : Uses.All (Owns Anywhere st) out
  defined_owns : ∀ e ∈ defined, e.2.All (Owns (¬K ·) st)
  covered : Covered ι st defined d
  chained : Chained defined depth chain (Table.keys context)
  solves : Solves η st.subst

namespace Resolving

variable {defined : Defined} {d : Table V} {depth : Nat} {chain : List String}
  {name : String} {uses : List Ty} {context out : Context}

theorem anywhere (h : Resolving ι K defined d depth chain context out st η) :
    ∀ e ∈ defined, e.2.All (Owns Anywhere st) :=
  fun e he => (h.defined_owns e he).imp fun _ ht => ht.anywhere

/-- What stays as it is while states evolve. -/
theorem evolve (h : Resolving ι K defined d depth chain context out st η) (hev : Evolves K st st')
    {depth' : Nat} {chain' : List String} {context' out' : Context} {η' : Nat → Plain}
    (hc : Uses.All (Owns K st') context') (hout : Uses.All (Owns Anywhere st') out')
    (hchain : Chained defined depth' chain' (Table.keys context')) (hη : Solves η' st'.subst) :
    Resolving ι K defined d depth' chain' context' out' st' η' where
  region := hev.region
  outside := hev.closedOn_outside h.outside
  owns := hc
  out_owns := hout
  defined_owns := fun e he => (h.defined_owns e he).imp fun _ ht => ht.mono hev.count_le
  covered := h.covered.mono h.region.acyclic h.outside h.defined_owns hev
  chained := hchain
  solves := hη

/-- A declared name at the head of the context: its uses are equal to the type of the instance, and
the names of the instance are next. -/
theorem head (h : Resolving ι K defined d (depth + 1) chain ((name, uses) :: context) out st η)
    {S : Typing} (hget : Table.get? defined name = some S) (hx : name ∉ chain) {span : Span}
    {result : Except Problem Unit} {st₁ : State}
    (heq : equateAll span (useOf name) (instantiate S st).1.ty uses
      ((instantiate S st).2.logged (.resolved name uses.length)) = (result, st₁))
    {out' : Uses Plain}
    (hres : Settles ι d (Uses.map (Ty.eval η) ((name, uses) :: context)) (Uses.map (Ty.eval η) out)
      out') :
    result = .ok () ∧ Evolves K st st₁ ∧ ∃ η' out₁, (∀ m < st.count, η' m = η m) ∧
      Resolving ι K defined d depth (name :: chain) (instantiate S st).1.context out st₁ η' ∧
      Settles ι d (Uses.map (Ty.eval η') (instantiate S st).1.context) (Uses.map (Ty.eval η') out)
        out₁ ∧
      Settles ι d (Uses.map (Ty.eval η) context) out₁ out' := by
  have hc := Uses.all_cons.mp h.owns
  have hS := h.anywhere _ (Table.mem_of_get? hget)
  -- what is declared in the state is covered by an instance of the rules
  rcases Table.Rel.get? h.covered name with ⟨hnone, -⟩ | ⟨S', v, hS', hv, hinstances⟩
  · rw [hget] at hnone
    cases hnone
  rw [hget] at hS'
  cases hS'
  obtain ⟨c₁, t₁, out₁, hinstance, hts, hc₁, hrest⟩ := hres.declared_inv hv
  -- the types that the rules choose for the instance extend the given ones to its new variables
  obtain ⟨hok, η', hη', hagree, rfl⟩ := instance_complete h.region hS hc.1 h.solves
    (hinstances c₁ t₁ hinstance) hts heq
  obtain ⟨hev, hcontext⟩ := instance_evolves h.region h.anywhere hget hc.1 heq
  -- an instance uses the names that the declaration uses
  have hkeys : Table.keys (instantiate S st).1.context = Table.keys S.context := by
    obtain ⟨-, -, -, hcopy⟩ := instantiate_evolves h.region hS
    rw [hcopy, Typing.renumber, Typing.mapTypes_context, Typing.apply, Typing.mapTypes_context,
      Uses.keys_map, Uses.keys_map]
  refine ⟨hok, hev, η', out₁, hagree, h.evolve hev hcontext (fun e he t ht =>
    (h.out_owns e he t ht).mono hev.count_le) (hkeys ▸ h.chained.push hx hget) hη', ?_, hrest⟩
  rwa [Owns.map_eval_eq h.out_owns hagree]

end Resolving

/-- **Resolving names follows every choice of instances.** -/
theorem ResolutionRun.complete {defined : Defined} {span : Span} {depth : Nat}
    {chain : List String} {context out : Context} {res : Outcome Unit Context × State}
    {d : Table V} (hrun : ResolutionRun defined span depth chain context out st res)
    (h : Resolving ι K defined d depth chain context out st η) {out' : Uses Plain}
    (hres : Settles ι d (Uses.map (Ty.eval η) context) (Uses.map (Ty.eval η) out) out') :
    res.1.1 = .ok () ∧ ∃ η', Solves η' res.2.subst ∧ (∀ m < st.count, η' m = η m) ∧
      out' = Uses.map (Ty.eval η') res.1.2 := by
  induction hrun generalizing η out' with
  | nil =>
    cases hres
    exact ⟨rfl, η, h.solves, fun _ _ => rfl, rfl⟩
  -- without a declaration the rules pass the name out, too
  | @undeclared _ _ name uses context out st res hget _ ih =>
    have hc := Uses.all_cons.mp h.owns
    rw [Uses.map_cons] at hres
    cases hres with
    | undeclared _ hrest =>
      rw [← Uses.map_passOut] at hrest
      exact ih (h.evolve h.region.evolves_refl hc.2
        (h.out_owns.passOut (fun t ht => (hc.1 t ht).anywhere) name) h.chained.tail h.solves) hrest
    | declared hv _ _ _ _ =>
      rcases Table.Rel.get? h.covered name with ⟨-, hnone⟩ | ⟨S, v, hS, -, -⟩
      · rw [hnone] at hv
        cases hv
      · rw [hget] at hS
        cases hS
  -- the rules reach an end, so no name that they resolve leads back to itself
  | @recursive _ _ name _ _ _ _ _ hget hrec =>
    have hacc := Settles.acc h.covered hres name (by
      rw [Uses.keys_map]
      exact List.mem_cons_self)
    exact absurd hrec (h.chained.not_recursive hacc hget)
  | clash hget hx heq =>
    obtain ⟨hok, -⟩ := h.head hget hx heq hres
    cases hok
  -- there is a choice for the names of the instance, so resolving them does not fail
  | fail hget hx heq _ ih =>
    obtain ⟨-, -, η', out₁, -, h₁, hc₁, -⟩ := h.head hget hx heq hres
    obtain ⟨hok, -⟩ := ih h₁ hc₁
    cases hok
  | @declared _ _ name uses context out st _ st₁ out₁ st₂ res hget hx heq hinner hrest ih ihrest =>
    obtain ⟨-, hev₁, η', out₁', hagree, h₁, hc₁, hrest'⟩ := h.head hget hx heq hres
    obtain ⟨-, η'', hη'', hagree', rfl⟩ := ih h₁ hc₁
    obtain ⟨hev₂, hout₂⟩ := hinner.evolves h₁.region h₁.anywhere h₁.owns
    -- the types of old variables are kept, first by the instance and then by its names
    have hagree₂ : ∀ m < st.count, η'' m = η m := fun m hm => by
      rw [hagree' m (lt_of_lt_of_le hm hev₁.count_le), hagree m hm]
    have hc := (Uses.all_cons.mp h.owns).2
    have h₂ : Resolving ι K defined d _ _ context out₁ st₂ η'' :=
      h.evolve (hev₁.trans hev₂)
        (fun e he t ht => (hc e he t ht).mono (le_trans hev₁.count_le hev₂.count_le))
        (hout₂ Anywhere (fun _ _ => trivial) h₁.out_owns) h.chained.tail hη''
    -- the uses that are left are over old variables and mean the same as before
    rw [← Owns.map_eval_eq hc hagree₂] at hrest'
    obtain ⟨hok, η₃, hη₃, hagree₃, hout⟩ := ihrest h₂ hrest'
    refine ⟨hok, η₃, hη₃, fun m hm => ?_, hout⟩
    rw [hagree₃ m (lt_of_lt_of_le hm (le_trans hev₁.count_le hev₂.count_le)), hagree₂ m hm]

end LetTyping
