import LetTyping.Proofs.Soundness

/-!
# What inferred types are made of

Inference makes types of the variables it allocates and of the constructors in its rules.  Every
variable is allocated once, with its tag, so two variables with one number are equal.  The mark of a
failed application comes from a failed application only: where none has failed, no type that is
found and no binding that is made has a mark in it.

Both facts are about the stock of variables that are in use.  A step of inference keeps to the stock
or adds fresh variables to it, and the types it finds are made of the stock.

## Main definitions

* `Ty.MadeOf` — the variables of a type are in a stock, its constructors are those of the language,
  and whether it may have marks of failure.
* `Stock` — the variables in use in a region, which the bindings of the region are made of.

## Main results

* `Stock.unified`, `Stock.instantiate` — the basic operations keep to the stock or extend it.
* `ResolutionRun.madeOf`, `absorb_madeOf` — so do the rules.
* `infer_madeOf` — **what inference finds is made of a stock of variables, and of marks of failure
  only if an application has failed.**
-/

namespace LetTyping

/-- The constructors of types, among them the mark of failure only if `F`. -/
def Ty.IsConstructor (F : Prop) (name : String) : Prop :=
  name ∈ ["Int", "Unit", Ty.arrowName, Ty.productName] ∨ name = Ty.failureName ∧ F

/-- The variables of a type are in the stock `V`, its constructors are those of the rules, and marks
of failure occur in it only if `F`. -/
inductive Ty.MadeOf (V : TVar → Prop) (F : Prop) : Ty → Prop
  | var {v : TVar} : V v → MadeOf V F (.var v)
  | con {name : String} {args : List Ty} : Ty.IsConstructor F name →
      (∀ a ∈ args, MadeOf V F a) → MadeOf V F (.con name args)

variable {K : Nat → Prop} {V V' W : TVar → Prop} {F : Prop} {st st' : State} {T : Typing}

namespace Ty.MadeOf

variable {t : Ty}

theorem mono (h : t.MadeOf V F) (hV : V ≤ V') : t.MadeOf V' F := by
  induction h with
  | var hv => exact .var (hV _ hv)
  | con hname _ ih => exact .con hname ih

theorem args {name : String} {args : List Ty} (h : MadeOf V F (.con name args)) :
    ∀ a ∈ args, MadeOf V F a := by
  cases h with
  | con _ hargs => exact hargs

theorem mem_vars (h : t.MadeOf V F) : ∀ v ∈ t.vars, V v := by
  induction h with
  | var hv => simpa using hv
  | con _ _ ih =>
    intro v hv
    rw [Term.vars_con, List.mem_flatMap] at hv
    obtain ⟨a, ha, hva⟩ := hv
    exact ih a ha v hva

/-- Where marks of failure are excluded there are none. -/
theorem hasFailure (h : t.MadeOf V False) : t.hasFailure = false := by
  induction h with
  | var _ => rfl
  | con hname _ ih =>
    rw [Ty.hasFailure, Term.mentions_con, Bool.or_eq_false_iff, List.any_eq_false]
    have hne : ∀ n ∈ ["Int", "Unit", Ty.arrowName, Ty.productName], n ≠ Ty.failureName := by decide
    exact ⟨decide_eq_false (hname.elim (hne _) fun hF => hF.2.elim),
      fun a ha => by simpa [Ty.hasFailure] using ih a ha⟩

theorem renamed (h : t.MadeOf V F) {f : TVar → TVar} (hf : ∀ v ∈ t.vars, W (f v)) :
    MadeOf W F (t.map f) := by
  induction h with
  | var _ => exact .var (hf _ (by simp))
  | con hname _ ih =>
    rw [Term.map, Term.bind_con]
    refine .con hname (List.forall_mem_map.mpr fun a ha => ih a ha fun v hv => hf v ?_)
    rw [Term.vars_con, List.mem_flatMap]
    exact ⟨a, ha, hv⟩

theorem int : MadeOf V F Ty.int := .con (Or.inl (by decide)) (by simp)

theorem unit : MadeOf V F Ty.unit := .con (Or.inl (by decide)) (by simp)

theorem arrow {a b : Ty} (ha : a.MadeOf V F) (hb : b.MadeOf V F) : MadeOf V F (.arrow a b) :=
  .con (Or.inl (by decide)) (by simpa using ⟨ha, hb⟩)

theorem product {ts : List Ty} (h : ∀ t ∈ ts, t.MadeOf V F) : MadeOf V F (.product ts) :=
  .con (Or.inl (by decide)) h

theorem failure {a b : Ty} (hF : F) (ha : a.MadeOf V F) (hb : b.MadeOf V F) :
    MadeOf V F (.failure a b) :=
  .con (Or.inr ⟨rfl, hF⟩) (by simpa using ⟨ha, hb⟩)

theorem hereditary (hV : ∀ v, V v → K v.id) : Hereditary K (MadeOf V F) where
  var := fun v h => by
    cases h with
    | var hv => exact hV v hv
  args := fun _ _ h => h.args

end Ty.MadeOf

/-- All the types of a typing are made of a larger stock as well. -/
theorem Typing.All.madeOf_mono (h : T.All (Ty.MadeOf V F)) (hV : V ≤ V') :
    T.All (Ty.MadeOf V' F) :=
  h.imp fun _ ht => ht.mono hV

/-! ### Stocks -/

/-- The variables `V` are the ones in use in the region `K`: they are allocated, no two have the
same number, and the bindings of the region are made of them. -/
structure Stock (K : Nat → Prop) (V : TVar → Prop) (F : Prop) (st : State) : Prop where
  region : Region K st
  bounded : st.subst.Bounded K (Ty.MadeOf V F)
  owned : ∀ v, V v → K v.id ∧ v.id < st.count
  unique : ∀ v w, V v → V w → v.id = w.id → v = w

/-- No variables are in use in the region of the variables to come. -/
theorem Region.stock (h : Region K st) (F : Prop) : Stock (st.count ≤ ·) (fun _ => False) F st where
  region := h.above
  bounded := fun n t hn hb => absurd hb (by simp [h.unbound hn])
  owned := fun _ hv => hv.elim
  unique := fun _ _ hv => hv.elim

namespace Stock

theorem owns (h : Stock K V F st) {t : Ty} (ht : t.MadeOf V F) : Owns K st t := by
  intro n hn
  obtain ⟨v, hv, rfl⟩ := List.mem_map.mp hn
  exact h.owned v (ht.mem_vars v hv)

theorem owns_typing (h : Stock K V F st) (hT : T.All (Ty.MadeOf V F)) :
    T.All (Owns Anywhere st) :=
  hT.imp fun _ ht => (h.owns ht).anywhere

/-- Resolved types are made of the same stock. -/
theorem apply (h : Stock K V F st) {t : Ty} (ht : t.MadeOf V F) :
    (st.subst.apply t).MadeOf V F := by
  induction t using h.region.acyclic.induction with
  | unbound v hv =>
    rw [Subst.apply_var_of_unbound hv]
    exact ht
  | bound v u hv ih =>
    rw [h.region.acyclic.apply_var_of_bound hv]
    -- a variable of the stock is bound to types of the stock
    refine ih (h.bounded v.id u ?_ hv)
    cases ht with
    | var hV => exact (h.owned v hV).1
  | con name args ih =>
    cases ht with
    | con hname hargs =>
      rw [Subst.apply_con]
      exact .con hname (List.forall_mem_map.mpr fun a ha => ih a ha (hargs a ha))

theorem apply_typing (h : Stock K V F st) (hT : T.All (Ty.MadeOf V F)) :
    (T.apply st.subst).All (Ty.MadeOf V F) := by
  rw [Typing.apply, Typing.all_mapTypes]
  exact hT.imp fun _ ht => h.apply ht

/-- Fresh variables are added to the stock. -/
theorem allocate (h : Stock K V F st) (hev : Evolves K st st') (hsubst : st'.subst = st.subst)
    (hW : ∀ w, W w → st.count ≤ w.id ∧ w.id < st'.count)
    (hunique : ∀ v w, W v → W w → v.id = w.id → v = w) :
    Stock K (fun v => V v ∨ W v) F st' where
  region := hev.region
  bounded := fun n t hn hb => (h.bounded n t hn (by rwa [hsubst] at hb)).mono fun _ => Or.inl
  owned := by
    rintro v (hv | hv)
    · exact ⟨(h.owned v hv).1, lt_of_lt_of_le (h.owned v hv).2 hev.count_le⟩
    · exact ⟨h.region.fresh v.id (hW v hv).1, (hW v hv).2⟩
  unique := by
    -- a variable that is old and one that is fresh have different numbers
    rintro v w (hv | hv) (hw | hw) heq
    · exact h.unique v w hv hw heq
    · have := (h.owned v hv).2
      have := (hW w hw).1
      omega
    · have := (h.owned w hw).2
      have := (hW v hv).1
      omega
    · exact hunique v w hv hw heq

theorem next (h : Stock K V F st) (tag : Option String) :
    ∃ V', V ≤ V' ∧ Stock K V' F st.next ∧ Ty.MadeOf V' F (.var ⟨st.count, tag⟩) := by
  refine ⟨_, fun _ => Or.inl, h.allocate (W := fun v => v = ⟨st.count, tag⟩)
    (State.next_evolves h.region) rfl ?_ ?_, .var (Or.inr rfl)⟩
  · rintro v rfl
    exact ⟨le_refl _, Nat.lt_succ_self _⟩
  · rintro v w rfl rfl _
    rfl

theorem logged (h : Stock K V F st) (event : Event) : Stock K V F (st.logged event) :=
  ⟨(State.logged_evolves h.region event).region, h.bounded, h.owned, h.unique⟩

theorem unified (h : Stock K V F st) {a b : Ty} (ha : a.MadeOf V F) (hb : b.MadeOf V F) :
    Stock K V F (st.unified a b) where
  region := (State.unified_evolves h.region (h.owns ha) (h.owns hb)).region
  bounded := (unify_frame (Ty.MadeOf.hereditary fun v hv => (h.owned v hv).1) h.bounded ha hb).1
  owned := h.owned
  unique := h.unique

/-- An instance is made of fresh variables, one for every variable of the resolved typing. -/
theorem instantiate (h : Stock K V F st) (hT : T.All (Ty.MadeOf V F)) :
    ∃ V', V ≤ V' ∧ Stock K V' F (instantiate T st).2 ∧
      (LetTyping.instantiate T st).1.All (Ty.MadeOf V' F) := by
  obtain ⟨hev, -, -, heq⟩ := instantiate_evolves h.region (h.owns_typing hT)
  have hR := h.apply_typing hT
  refine ⟨_, fun _ => Or.inl, h.allocate (W := fun v => ∃ w : TVar,
    w.id ∈ (T.apply st.subst).ids ∧ v = w.renumber st.count (T.apply st.subst).freeVars) hev rfl
    ?_ ?_, ?_⟩
  · rintro v ⟨w, hw, rfl⟩
    exact Typing.slot_bounds hw
  · -- the tag comes from the first occurrence of the variable
    rintro v v' ⟨w, hw, rfl⟩ ⟨w', hw', rfl⟩ hid
    have hplace : TVar.place (T.apply st.subst).freeVars w.id =
        TVar.place (T.apply st.subst).freeVars w'.id := Nat.add_left_cancel hid
    obtain ⟨u, hu, -⟩ := TVar.getElem?_place (Typing.mem_freeVars.mpr hw)
    rw [TVar.renumber, TVar.renumber, ← hplace, hu]
    rfl
  · rw [heq, Typing.renumber, Typing.all_mapTypes]
    intro t ht
    exact (hR t ht).renamed fun v hv => Or.inr
      ⟨v, Typing.all_mem_ids _ t ht v.id (Ty.mem_ids hv), rfl⟩

end Stock

/-! ### The rules -/

theorem equateAll_madeOf {a : Ty} {bs : List Ty} (span : Span) (description : String) :
    ∀ {st : State}, Stock K V F st → a.MadeOf V F → (∀ b ∈ bs, b.MadeOf V F) →
      Stock K V F (equateAll span description a bs st).2 := by
  induction bs with
  | nil =>
    intro st h _ _
    exact h
  | cons b bs ih =>
    intro st h ha hbs
    have h₁ := h.unified ha (hbs b List.mem_cons_self)
    rw [equateAll_cons, equate_eq]
    rcases (unify st.subst a b).1 with cause | _
    · exact h₁
    · exact ih h₁ ha fun b' hb' => hbs b' (List.mem_cons_of_mem _ hb')

theorem bindParams_madeOf (span : Span) (params : List String) :
    ∀ {context : Context} {st st' : State} {ts : List Ty} {c : Context} {V : TVar → Prop},
      Stock K V F st → Uses.All (Ty.MadeOf V F) context →
      bindParams span params context st = (.ok (ts, c), st') →
      ∃ V', V ≤ V' ∧ Stock K V' F st' ∧ (∀ t ∈ ts, t.MadeOf V' F) ∧
        Uses.All (Ty.MadeOf V' F) c := by
  induction params with
  | nil =>
    intro context st st' ts c V h hc hres
    rw [bindParams_nil] at hres
    cases hres
    exact ⟨V, le_refl _, h, by simp, hc⟩
  | cons param params ih =>
    intro context st st' ts c V h hc hres
    -- the parameter is a new variable of the stock
    obtain ⟨V₁, hle₁, h₁, hvar⟩ := h.next none
    have hc₁ : Uses.All (Ty.MadeOf V₁ F) context := fun e he t ht => (hc e he t ht).mono hle₁
    have h₂ := equateAll_madeOf span (parameterOf param) h₁ hvar (hc₁.of param)
    rw [bindParams_cons, Context.uses_eq] at hres
    rcases heq : equateAll span (parameterOf param) (.var ⟨st.count, none⟩) (Uses.of context param)
      st.next with ⟨problem | _, st₁⟩ <;> rw [heq] at hres h₂
    · cases hres
    · simp only at hres
      rcases hrest : bindParams span params (Table.erase context param) st₁ with
        ⟨problem | ⟨ts', c'⟩, st₂⟩ <;> rw [hrest] at hres
      · cases hres
      · cases hres
        obtain ⟨V₂, hle₂, h₃, hts, hc'⟩ := ih h₂ (hc₁.erase param) hrest
        exact ⟨V₂, le_trans hle₁ hle₂, h₃,
          List.forall_mem_cons.mpr ⟨hvar.mono hle₂, hts⟩, hc'⟩

/-- An application adds a mark of failure only when it fails. -/
theorem applyTypings_madeOf (h : Stock K V F st) {span : Span} {fnRaw fn argRaw arg : Typing}
    (hfnRaw : fnRaw.All (Ty.MadeOf V F)) (hfn : fn.All (Ty.MadeOf V F))
    (hargRaw : argRaw.All (Ty.MadeOf V F)) (harg : arg.All (Ty.MadeOf V F))
    (hres : applyTypings span fnRaw fn argRaw arg st = (T, st'))
    (hF : F ∨ T.ty.isFailure = false) :
    ∃ V', V ≤ V' ∧ Stock K V' F st' ∧ T.All (Ty.MadeOf V' F) := by
  obtain ⟨hfty, hfc, -⟩ := Typing.all_iff.mp hfn
  obtain ⟨haty, hac, -⟩ := Typing.all_iff.mp harg
  obtain ⟨V₁, hle₁, h₁, hvar⟩ := h.next none
  -- unification makes types of what it is given, whether it succeeds or not
  have h₂ := h₁.unified (hfty.mono hle₁) (.arrow (haty.mono hle₁) hvar)
  rw [applyTypings_eq] at hres
  rcases hunify : (unify st.subst fn.ty (.arrow arg.ty (.var ⟨st.count, none⟩))).1 with
    cause | _ <;> rw [hunify] at hres <;> cases hres
  · obtain ⟨V₂, hle₂, h₃, hother⟩ := (h₂.logged (.applicationFailed cause.message span.start)).next
      none
    have hle := le_trans hle₁ hle₂
    -- here a mark is made, which is allowed only where marks are
    have hF : F := hF.resolve_right (by simp [Typing.closed, Ty.failure, Ty.isFailure, Term.isCon])
    exact ⟨V₂, hle, h₃, Typing.all_closed.mpr (.failure hF ((Typing.all_iff.mp hfnRaw).1.mono hle)
      (.arrow ((Typing.all_iff.mp hargRaw).1.mono hle) hother))⟩
  · refine ⟨V₁, hle₁, h₂, Typing.all_iff.mpr
      ⟨hvar, ?_, fun _ he => absurd he List.not_mem_nil⟩⟩
    rw [Context.union_eq]
    exact .union (fun e he t ht => (hfc e he t ht).mono hle₁)
      fun e he t ht => (hac e he t ht).mono hle₁

/-- Resolving names makes types of the instances of the declarations. -/
theorem ResolutionRun.madeOf {defined : Defined} {span : Span} {depth : Nat} {chain : List String}
    {context out : Context} {res : Outcome Unit Context × State}
    (hrun : ResolutionRun defined span depth chain context out st res) (h : Stock K V F st)
    (hdef : ∀ e ∈ defined, e.2.All (Ty.MadeOf V F)) (hc : Uses.All (Ty.MadeOf V F) context)
    (hout : Uses.All (Ty.MadeOf V F) out) (hok : res.1.1 = .ok ()) :
    ∃ V', V ≤ V' ∧ Stock K V' F res.2 ∧ Uses.All (Ty.MadeOf V' F) res.1.2 := by
  induction hrun generalizing V with
  | nil => exact ⟨V, le_refl _, h, hout⟩
  | @undeclared _ _ name _ _ _ _ _ _ _ ih =>
    rw [Uses.all_cons] at hc
    exact ih h hdef hc.2 (hout.passOut hc.1 name) hok
  | recursive => cases hok
  | clash => cases hok
  | fail => cases hok
  | @declared _ _ name uses _ _ _ S st₁ _ _ _ hget _ heq _ _ ih ihrest =>
    rw [Uses.all_cons] at hc
    -- an instance has fresh variables in the place of the old ones
    obtain ⟨V₁, hle₁, h₁, hcopy⟩ := h.instantiate (hdef _ (Table.mem_of_get? hget))
    obtain ⟨hty, hcontext, -⟩ := Typing.all_iff.mp hcopy
    have h₂ := equateAll_madeOf span (useOf name) (h₁.logged (.resolved name uses.length)) hty
      fun t ht => (hc.1 t ht).mono hle₁
    rw [heq] at h₂
    -- first the names of the instance, then the others, with a stock that only grows
    obtain ⟨V₂, hle₂, h₃, hout₂⟩ := ih h₂ (fun e he => (hdef e he).madeOf_mono hle₁) hcontext
      (fun e he t ht => (hout e he t ht).mono hle₁) rfl
    have hle := le_trans hle₁ hle₂
    obtain ⟨V₃, hle₃, h₄, hout₃⟩ := ihrest h₃ (fun e he => (hdef e he).madeOf_mono hle)
      (fun e he t ht => (hc.2 e he t ht).mono hle) hout₂ hok
    exact ⟨V₃, le_trans hle hle₃, h₄, hout₃⟩

theorem absorb_madeOf (h : Stock K V F st) {sofar stmt : Typing} {span : Span}
    (hsofar : sofar.All (Ty.MadeOf V F)) (hstmt : stmt.All (Ty.MadeOf V F))
    (hres : absorb sofar span stmt st = (.ok T, st')) :
    ∃ V', V ≤ V' ∧ Stock K V' F st' ∧ T.All (Ty.MadeOf V' F) := by
  obtain ⟨V₁, hle₁, h₁, hcopy⟩ := h.instantiate hstmt
  obtain ⟨hty, hcontext, hdefined⟩ := Typing.all_iff.mp hcopy
  obtain ⟨-, hout, hbefore⟩ := Typing.all_iff.mp (hsofar.madeOf_mono hle₁)
  -- the names of the block are those declared before and those of the statement
  have hdef : ∀ e ∈ Table.insertAll sofar.defined (instantiate stmt st).1.defined,
      e.2.All (Ty.MadeOf V₁ F) := fun e he =>
    (Table.mem_insertAll he).elim (hbefore e) (hdefined e)
  obtain ⟨result, out, st₁, hrun, heq⟩ := absorb_run sofar span stmt st
  rw [heq] at hres
  cases result with
  | error problem => cases hres
  | ok _ =>
    cases hres
    obtain ⟨V₂, hle₂, h₂, hc⟩ := hrun.madeOf h₁ hdef hcontext hout rfl
    exact ⟨V₂, le_trans hle₁ hle₂, h₂, Typing.all_iff.mpr
      ⟨hty.mono hle₂, hc, fun e he => (hdef e he).madeOf_mono hle₂⟩⟩

/-! ### Nodes -/

/-- What inference finds at a node is made of a stock of variables, and of marks of failure only if
they are there already or an application at the node has failed. -/
def InfersMadeOf (n : Tree Span) : Prop :=
  ∀ {K : Nat → Prop} {V : TVar → Prop} {F : Prop} {st : State}, Stock K V F st →
    ∀ {T t' st'}, infer n.unmarked st = ((.ok T, t'), st') → F ∨ t'.Succeeded →
      ∃ V', V ≤ V' ∧ Stock K V' F st' ∧ T.All (Ty.MadeOf V' F)

theorem inferAll_madeOf (ns : List (Tree Span)) (ih : ∀ n ∈ ns, InfersMadeOf n) :
    ∀ {V : TVar → Prop} {st : State}, Stock K V F st → ∀ {Ts ts' st'},
      inferAll (ns.map Tree.unmarked) st = ((.ok Ts, ts'), st') → F ∨ (∀ t' ∈ ts', t'.Succeeded) →
      ∃ V', V ≤ V' ∧ Stock K V' F st' ∧ ∀ T ∈ Ts, T.All (Ty.MadeOf V' F) := by
  induction ns with
  | nil =>
    intro V st h Ts ts' st' hres _
    rw [List.map_nil, inferAll_nil] at hres
    cases hres
    exact ⟨V, le_refl _, h, by simp⟩
  | cons n ns ihs =>
    intro V st h Ts ts' st' hres hF
    rw [List.forall_mem_cons] at ih
    obtain ⟨T, t₁, st₁, Ts, ts₁, hn, hns, rfl, rfl⟩ := inferAll_cons_ok hres
    rw [List.forall_mem_cons] at hF
    -- if nothing failed as a whole, nothing failed in the parts
    obtain ⟨V₁, hle₁, h₁, hT⟩ := ih.1 h hn (hF.imp_right And.left)
    obtain ⟨V₂, hle₂, h₂, hTs⟩ := ihs ih.2 h₁ hns (hF.imp_right And.right)
    exact ⟨V₂, le_trans hle₁ hle₂, h₂, List.forall_mem_cons.mpr ⟨hT.madeOf_mono hle₂, hTs⟩⟩

theorem inferStatements_madeOf (ns : List (Tree Span)) (ih : ∀ n ∈ ns, InfersMadeOf n) :
    ∀ {V : TVar → Prop} {sofar : Typing} {st : State}, Stock K V F st →
      sofar.All (Ty.MadeOf V F) → ∀ {T ts' st'},
      inferStatements sofar (ns.map Tree.unmarked) st = ((.ok T, ts'), st') →
      F ∨ (∀ t' ∈ ts', t'.Succeeded) →
      ∃ V', V ≤ V' ∧ Stock K V' F st' ∧ T.All (Ty.MadeOf V' F) := by
  induction ns with
  | nil =>
    intro V sofar st h hsofar T ts' st' hres _
    rw [List.map_nil, inferStatements_nil] at hres
    cases hres
    exact ⟨V, le_refl _, h, hsofar⟩
  | cons n ns ihs =>
    intro V sofar st h hsofar T ts' st' hres hF
    rw [List.forall_mem_cons] at ih
    obtain ⟨raw, t₁, st₁, sofar', st₂, ts₁, hn, habs, hns, rfl⟩ := inferStatements_cons_ok hres
    rw [List.forall_mem_cons] at hF
    obtain ⟨V₁, hle₁, h₁, hraw⟩ := ih.1 (h.logged _) hn (hF.imp_right And.left)
    obtain ⟨V₂, hle₂, h₂, hsofar'⟩ := absorb_madeOf h₁ (hsofar.madeOf_mono hle₁) hraw habs
    obtain ⟨V₃, hle₃, h₃, hT⟩ := ihs ih.2 h₂ hsofar' hns (hF.imp_right And.right)
    exact ⟨V₃, le_trans hle₁ (le_trans hle₂ hle₃), h₃, hT⟩

/-- A function applied to its argument. -/
theorem infersMadeOf_apply {l : Span} {fn arg : Tree Span} (ihf : InfersMadeOf fn)
    (iha : InfersMadeOf arg) : InfersMadeOf (.apply l fn arg) := by
  intro K V F st h T t' st' hres hF
  obtain ⟨fnRaw, fn', st₁, argRaw, arg', st₂, hfn, harg, happ, rfl⟩ := infer_apply_ok hres
  rw [Tree.succeeded_iff] at hF
  -- the stock grows with the function, its copy, the argument, its copy, and the application
  obtain ⟨V₁, hle₁, h₁, hfnRaw⟩ := ihf h hfn
    (hF.imp_right fun hs => hs.2 fn' (by simp [Tree.children]))
  obtain ⟨V₂, hle₂, h₂, hcopy⟩ := h₁.instantiate hfnRaw
  obtain ⟨V₃, hle₃, h₃, hargRaw⟩ := iha h₂ harg
    (hF.imp_right fun hs => hs.2 arg' (by simp [Tree.children]))
  obtain ⟨V₄, hle₄, h₄, hcopy'⟩ := h₃.instantiate hargRaw
  have hle₂₄ := le_trans hle₃ hle₄
  obtain ⟨V₅, hle₅, h₅, hT⟩ := applyTypings_madeOf h₄
    (hfnRaw.madeOf_mono (le_trans hle₂ hle₂₄)) (hcopy.madeOf_mono hle₂₄)
    (hargRaw.madeOf_mono hle₄) hcopy' happ (hF.imp_right fun hs => hs.1 T rfl rfl)
  exact ⟨V₅, le_trans hle₁ (le_trans hle₂ (le_trans hle₂₄ hle₅)), h₅, hT⟩

/-- **What inference finds is made of a stock of variables, and of marks of failure only if an
application has failed.** -/
theorem infer_madeOf (n : Tree Span) : InfersMadeOf n := by
  induction n using Tree.induction with
  | apply l fn arg ihf iha => exact infersMadeOf_apply ihf iha
  | int l value =>
    intro K V F st h T t' st' hres _
    rw [Tree.unmarked_int, infer_int rfl] at hres
    cases hres
    exact ⟨V, le_refl _, h, Typing.all_closed.mpr .int⟩
  | var l name =>
    intro K V F st h T t' st' hres _
    rw [Tree.unmarked_var, infer_var rfl] at hres
    cases hres
    obtain ⟨V₁, hle₁, h₁, hvar⟩ := h.next (some useTag)
    exact ⟨V₁, hle₁, h₁,
      Typing.all_iff.mpr ⟨hvar, by simpa [Context.singleton] using hvar, by simp⟩⟩
  | array l elems _ =>
    intro K V F st h T t' st' hres _
    rw [Tree.unmarked_array, infer_array rfl] at hres
    cases hres
  | assign l name value _ =>
    intro K V F st h T t' st' hres _
    rw [Tree.unmarked_assign, infer_assign rfl] at hres
    cases hres
  | tuple l elems ih =>
    intro K V F st h T t' st' hres hF
    obtain ⟨Ts, elems', hall, rfl, rfl⟩ := infer_tuple_ok hres
    rw [Tree.succeeded_iff] at hF
    obtain ⟨V₁, hle₁, h₁, hTs⟩ := inferAll_madeOf elems ih h hall (hF.imp_right And.right)
    exact ⟨V₁, hle₁, h₁, tupleTyping_all (fun _ => .product) hTs⟩
  | fn l params body ih =>
    intro K V F st h T t' st' hres hF
    obtain ⟨raw, body', st₁, ts, c, hbody, hbind, rfl, rfl⟩ := infer_fn_ok hres
    rw [Tree.succeeded_iff] at hF
    obtain ⟨V₁, hle₁, h₁, hraw⟩ := ih h hbody
      (hF.imp_right fun hs => hs.2 body' (by simp [Tree.children]))
    -- the parameters are bound in a copy of the typing of the body
    obtain ⟨V₂, hle₂, h₂, hcopy⟩ := h₁.instantiate hraw
    obtain ⟨hty, hcontext, -⟩ := Typing.all_iff.mp hcopy
    obtain ⟨V₃, hle₃, h₃, hts, hc⟩ := bindParams_madeOf l params h₂ hcontext hbind
    exact ⟨V₃, le_trans hle₁ (le_trans hle₂ hle₃), h₃, Typing.all_iff.mpr
      ⟨.arrow (.product hts) (hty.mono hle₃), hc, fun _ he => absurd he List.not_mem_nil⟩⟩
  | decl l name value ih =>
    intro K V F st h T t' st' hres hF
    obtain ⟨raw, value', hvalue, rfl, rfl⟩ := infer_decl_ok hres
    rw [Tree.succeeded_iff] at hF
    obtain ⟨V₁, hle₁, h₁, hraw⟩ := ih h hvalue
      (hF.imp_right fun hs => hs.2 value' (by simp [Tree.children]))
    exact ⟨V₁, hle₁, h₁, Typing.all_iff.mpr ⟨.unit, Uses.all_nil, by simpa [declTyping] using hraw⟩⟩
  | ret l value ih =>
    intro K V F st h T t' st' hres hF
    obtain ⟨value', hvalue, rfl⟩ := infer_ret_ok hres
    rw [Tree.succeeded_iff] at hF
    exact ih h hvalue (hF.imp_right fun hs => hs.2 value' (by simp [Tree.children]))
  | block l stmts ih =>
    intro K V F st h T t' st' hres hF
    obtain ⟨stmts', hstmts, rfl⟩ := infer_block_ok hres
    rw [Tree.succeeded_iff] at hF
    exact inferStatements_madeOf stmts ih h (Typing.all_closed.mpr .unit) hstmts
      (hF.imp_right And.right)

end LetTyping
