import LetTyping.Proofs.Evaluation
import LetTyping.Proofs.Instance
import LetTyping.Proofs.MostGeneral
import LetTyping.Proofs.Tree

/-!
# What inference touches

Inference works on a region of variables: those that it allocates, and possibly some others.  It
binds only variables of its region, and only to types over the region; all other bindings stay as
they are.  In particular the inference of a node touches no variable that was allocated before.

## Main definitions

* `Region` — a set of variables that holds all the ones to come and that bindings do not leave.
* `Evolves` — a state comes from another by allocations and by bindings in a region.
* `State.Allocated` — the variables of a type are allocated.
* `Owns` — the variables of a type are allocated and belong to a region.

## Main results

* `State.unified_evolves`, `instantiate_evolves` — what the basic operations touch.
* `bindParams_evolves`, `ResolutionRun.evolves`, `absorb_evolves` — what the rules touch.
* `infer_evolves` — **the inference of a node binds only variables that it allocates.**
-/

namespace LetTyping

variable {K M : Nat → Prop} {st st' st'' : State}

/-! ### Regions -/

/-- The set `K` holds all variables that are not allocated yet, and bindings of its variables do not
leave it.  All bindings are acyclic and are about allocated variables. -/
structure Region (K : Nat → Prop) (st : State) : Prop where
  acyclic : st.subst.Acyclic
  allocated : ∀ n t, st.subst[n]? = some t → n < st.count ∧ ∀ w ∈ t.ids, w < st.count
  closed : st.subst.ClosedOn K
  fresh : ∀ n, st.count ≤ n → K n

/-- The state `st'` comes from `st` by allocations and by bindings of variables in `K`. -/
structure Evolves (K : Nat → Prop) (st st' : State) : Prop where
  region : Region K st'
  count_le : st.count ≤ st'.count
  /-- Variables outside the region keep their bindings. -/
  kept : ∀ n : Nat, ¬K n → st'.subst[n]? = st.subst[n]?
  /-- Bindings only add equations. -/
  solves : ∀ θ, Solves θ st'.subst → Solves θ st.subst

/-- The set of all variables. -/
abbrev Anywhere : Nat → Prop := fun _ => True

/-- The variables of a type are allocated. -/
def State.Allocated (st : State) (t : Ty) : Prop := ∀ n ∈ t.ids, n < st.count

/-- The variables of a type are allocated and belong to `K`. -/
def Owns (K : Nat → Prop) (st : State) (t : Ty) : Prop := Over (fun w => K w ∧ w < st.count) t

theorem State.Allocated.owns {t : Ty} (h : st.Allocated t) : Owns Anywhere st t :=
  fun n hn => ⟨trivial, h n hn⟩

theorem Owns.allocated {t : Ty} (h : Owns K st t) : st.Allocated t := fun n hn => (h n hn).2

namespace Region

theorem unbound (h : Region K st) {n : Nat} (hn : st.count ≤ n) : st.subst[n]? = none := by
  cases hb : st.subst[n]? with
  | none => rfl
  | some t => exact absurd (h.allocated n t hb).1 (by omega)

/-- The variables to come are a region of their own. -/
theorem above (h : Region K st) : Region (st.count ≤ ·) st where
  acyclic := h.acyclic
  allocated := h.allocated
  closed := fun n t hn hb => absurd hb (by simp [h.unbound hn])
  fresh := fun _ hn => hn

/-- All variables together are a region. -/
theorem all (h : Region K st) : Region Anywhere st where
  acyclic := h.acyclic
  allocated := h.allocated
  closed := fun _ _ _ _ _ _ => trivial
  fresh := fun _ _ => trivial

theorem evolves_refl (h : Region K st) : Evolves K st st :=
  ⟨h, le_refl _, fun _ _ => rfl, fun _ hθ => hθ⟩

/-- Resolving a type does not leave a region. -/
theorem owns_apply (h : Region K st) {t : Ty} (ht : Owns K st t) :
    Owns K st (st.subst.apply t) := by
  refine h.acyclic.ids_apply_subset (K := fun n => K n ∧ n < st.count) ?_ ht
  intro n u hn hb w hw
  exact ⟨h.closed n u hn.1 hb w hw, (h.allocated n u hb).2 w hw⟩

end Region

/-- The initial state. -/
theorem region_start : Region Anywhere {} where
  acyclic := Subst.acyclic_of_rank (fun _ => 0) fun v w ⟨t, ht, _⟩ => by
    simp at ht
  allocated := fun n t hn => by simp at hn
  closed := fun _ _ _ _ _ _ => trivial
  fresh := fun _ _ => trivial

namespace Owns

variable {t : Ty}

theorem mono (h : Owns K st t) (hle : st.count ≤ st'.count) : Owns K st' t :=
  fun w hw => ⟨(h w hw).1, lt_of_lt_of_le (h w hw).2 hle⟩

theorem weaken (h : Owns K st t) (hKM : ∀ n, K n → M n) : Owns M st t :=
  fun w hw => ⟨hKM w (h w hw).1, (h w hw).2⟩

theorem anywhere (h : Owns K st t) : Owns Anywhere st t := h.weaken fun _ _ => trivial

theorem con {name : String} {args : List Ty} (h : ∀ a ∈ args, Owns K st a) :
    Owns K st (.con name args) :=
  over_con.mpr h

theorem arrow {a b : Ty} (ha : Owns K st a) (hb : Owns K st b) : Owns K st (.arrow a b) :=
  over_arrow.mpr ⟨ha, hb⟩

theorem failure {a b : Ty} (ha : Owns K st a) (hb : Owns K st b) : Owns K st (.failure a b) :=
  over_failure.mpr ⟨ha, hb⟩

theorem product {ts : List Ty} (h : ∀ t ∈ ts, Owns K st t) : Owns K st (.product ts) := con h

theorem closed_unit : (Typing.closed .unit).All (Owns K st) := Typing.all_closed.mpr (con (by simp))

end Owns

namespace Evolves

theorem trans (h : Evolves K st st') (h' : Evolves K st' st'') : Evolves K st st'' where
  region := h'.region
  count_le := le_trans h.count_le h'.count_le
  kept := fun n hn => (h'.kept n hn).trans (h.kept n hn)
  solves := fun θ hθ => h.solves θ (h'.solves θ hθ)

/-- What happens in a region happens in every larger one. -/
theorem weaken (h : Evolves K st st') (hM : Region M st) (hKM : ∀ n, K n → M n) :
    Evolves M st st' where
  region := by
    refine ⟨h.region.acyclic, h.region.allocated, fun n t hn hb w hw => ?_, fun n hn =>
      hM.fresh n (le_trans h.count_le hn)⟩
    by_cases hK : K n
    · exact hKM w (h.region.closed n t hK hb w hw)
    · exact hM.closed n t hn ((h.kept n hK).symm.trans hb) w hw
  count_le := h.count_le
  kept := fun n hn => h.kept n fun hK => hn (hKM n hK)
  solves := h.solves

/-- Types without variables of the region are resolved as before. -/
theorem apply_eq (h : Evolves K st st') (hs : st.subst.Acyclic)
    (hK : st.subst.ClosedOn fun n => ¬K n) {t : Ty} (ht : ∀ w ∈ t.ids, ¬K w) :
    st'.subst.apply t = st.subst.apply t :=
  hs.apply_eq_of_agree h.region.acyclic hK (fun n hn => h.kept n hn) ht

end Evolves

/-- Giving other types to variables that are not allocated yet leaves a solution a solution. -/
theorem Region.solves_congr (h : Region K st) {η η' : Nat → Term Nat} (hη : Solves η st.subst)
    (hagree : ∀ m < st.count, η' m = η m) : Solves η' st.subst := by
  intro n t hn
  obtain ⟨hlt, hids⟩ := h.allocated n t hn
  rw [hagree n hlt, hη n t hn]
  exact Ty.eval_congr fun m hm => (hagree m (hids m hm)).symm

theorem Owns.eval_eq {t : Ty} (h : Owns K st t) {η η' : Nat → Term Nat}
    (hagree : ∀ m < st.count, η' m = η m) : t.eval η' = t.eval η :=
  Ty.eval_congr fun m hm => hagree m (h m hm).2

theorem Owns.map_eval_eq {c : Context} (h : Uses.All (Owns K st) c) {η η' : Nat → Term Nat}
    (hagree : ∀ m < st.count, η' m = η m) :
    Uses.map (Ty.eval η') c = Uses.map (Ty.eval η) c :=
  Uses.map_congr fun e he t ht => (h e he t ht).eval_eq hagree

/-! ### The basic operations -/

/-- A fresh variable belongs to every region. -/
theorem Region.owns_var (h : Region K st) (tag : Option String) :
    Owns K st.next (.var ⟨st.count, tag⟩) := by
  intro w hw
  rw [Ty.ids_var, List.mem_singleton] at hw
  rw [hw]
  exact ⟨h.fresh _ (le_refl _), Nat.lt_succ_self _⟩

theorem State.next_evolves (h : Region K st) : Evolves K st st.next where
  region := ⟨h.acyclic, fun n t hb => ⟨Nat.lt_succ_of_lt (h.allocated n t hb).1, fun w hw =>
    Nat.lt_succ_of_lt ((h.allocated n t hb).2 w hw)⟩, h.closed, fun n hn =>
    h.fresh n (Nat.le_of_succ_le hn)⟩
  count_le := Nat.le_succ _
  kept := fun _ _ => rfl
  solves := fun _ hθ => hθ

theorem State.logged_evolves (h : Region K st) (event : Event) : Evolves K st (st.logged event) :=
  ⟨⟨h.acyclic, h.allocated, h.closed, h.fresh⟩, le_refl _, fun _ _ => rfl, fun _ hθ => hθ⟩

/-- **Unification binds only variables of the region of its types.** -/
theorem State.unified_evolves (h : Region K st) {a b : Ty} (ha : Owns K st a) (hb : Owns K st b) :
    Evolves K st (st.unified a b) := by
  obtain ⟨hacyclic, hspec⟩ := unify_spec h.acyclic a b
  -- the variables in reach are those of the region that are allocated
  obtain ⟨hbounded, hkept⟩ := unify_frame (hereditary_ids fun n => K n ∧ n < st.count)
    (s := st.subst)
    (fun n t hn hnt w hw => ⟨h.closed n t hn.1 hnt w hw, (h.allocated n t hnt).2 w hw⟩) ha hb
  refine ⟨⟨hacyclic, fun n t hn => ?_, fun n t hK hn => ?_, h.fresh⟩, le_refl _,
    fun n hn => hkept n fun hK => hn hK.1, fun θ hθ => ?_⟩
  · by_cases hK : K n ∧ n < st.count
    · exact ⟨hK.2, fun w hw => (hbounded n t hK hn w hw).2⟩
    · exact h.allocated n t ((hkept n hK).symm.trans hn)
  · by_cases hlt : n < st.count
    · exact fun w hw => (hbounded n t ⟨hK, hlt⟩ hn w hw).1
    · have := (hkept n fun h' => hlt h'.2).symm.trans hn
      rw [h.unbound (Nat.le_of_not_lt hlt)] at this
      exact absurd this (by simp)
  · cases hres : (unify st.subst a b).1 with
    | error cause =>
      have hsame : (st.unified a b).subst = st.subst := unify_error hres
      rwa [hsame] at hθ
    | ok _ =>
      rw [hres] at hspec
      exact ((hspec θ).mp hθ).1

/-- The variables of a resolved typing are allocated. -/
theorem Region.ids_apply_lt (h : Region K st) {T : Typing} (hT : T.All (Owns Anywhere st)) :
    ∀ w ∈ (T.apply st.subst).ids, w < st.count := by
  rw [Typing.forall_mem_ids, Typing.apply, Typing.all_mapTypes]
  exact hT.imp fun t ht w hw => (h.all.owns_apply ht w hw).2

/-- An instance has fresh variables only, and making it binds nothing. -/
theorem instantiate_evolves (h : Region K st) {T : Typing}
    (hT : T.All (Owns Anywhere st)) :
    Evolves K st (instantiate T st).2 ∧ (instantiate T st).1.All (Owns K (instantiate T st).2) ∧
      (instantiate T st).1.All (Owns (st.count ≤ ·) (instantiate T st).2) ∧
      instantiate T st = ((T.apply st.subst).renumber st.count,
        { st with count := st.count + (T.apply st.subst).freeVars.length }) := by
  have heq := instantiate_eq (h.ids_apply_lt hT)
  -- variables of the copy are new: they are numbered from the first free one on
  have hbounds : ∀ w ∈ (instantiate T st).1.ids,
      st.count ≤ w ∧ w < (instantiate T st).2.count := by
    rw [heq]
    intro w hw
    obtain ⟨n, hn, rfl⟩ := Typing.ids_renumber hw
    exact Typing.slot_bounds hn
  rw [Typing.forall_mem_ids] at hbounds
  refine ⟨⟨⟨h.acyclic, fun n t hb => ?_, h.closed, fun n hn => h.fresh n ?_⟩, Nat.le_add_right _ _,
    fun _ _ => rfl, fun _ hθ => hθ⟩, hbounds.imp fun t ht w hw => ?_, hbounds, heq⟩
  · have hle : st.count ≤ (instantiate T st).2.count := Nat.le_add_right _ _
    exact ⟨lt_of_lt_of_le (h.allocated n t hb).1 hle, fun w hw =>
      lt_of_lt_of_le ((h.allocated n t hb).2 w hw) hle⟩
  · exact le_trans (Nat.le_add_right _ _) hn
  · exact ⟨h.fresh w (ht w hw).1, (ht w hw).2⟩

/-- An instance is its own resolved form. -/
theorem Region.apply_instance (h : Region K st) {T : Typing} (hT : T.All (Owns Anywhere st)) :
    (instantiate T st).1.apply (instantiate T st).2.subst = (instantiate T st).1 := by
  obtain ⟨-, -, hnew, heq⟩ := instantiate_evolves h hT
  have hsubst : (instantiate T st).2.subst = st.subst := by rw [heq]
  rw [hsubst, Typing.apply]
  refine Typing.mapTypes_eq_self (hnew.imp fun t ht => Subst.apply_eq_self fun w hw => ?_)
  exact h.unbound (ht w hw).1

/-! ### The rules -/

theorem equate_evolves (h : Region K st) {a b : Ty} (ha : Owns K st a) (hb : Owns K st b)
    (span : Span) (description : String) : Evolves K st (equate span description a b st).2 := by
  have hu := State.unified_evolves h ha hb
  rw [equate_eq]
  split <;> exact hu

theorem equateAll_evolves {a : Ty} {bs : List Ty} (span : Span) (description : String) :
    ∀ {st : State}, Region K st → Owns K st a → (∀ b ∈ bs, Owns K st b) →
      Evolves K st (equateAll span description a bs st).2 := by
  induction bs with
  | nil =>
    intro st h _ _
    exact h.evolves_refl
  | cons b bs ih =>
    intro st h ha hbs
    have h₁ := equate_evolves h ha (hbs b List.mem_cons_self) span description
    rw [equateAll_cons]
    rcases hres : equate span description a b st with ⟨_ | _, st₁⟩ <;> rw [hres] at h₁
    · exact h₁
    · exact h₁.trans (ih h₁.region (ha.mono h₁.count_le) fun b' hb' =>
        (hbs b' (List.mem_cons_of_mem _ hb')).mono h₁.count_le)

theorem bindParams_evolves (span : Span) (params : List String) :
    ∀ {context : Context} {st : State}, Region K st → Uses.All (Owns K st) context →
      Evolves K st (bindParams span params context st).2 ∧
        ∀ ts c, (bindParams span params context st).1 = .ok (ts, c) →
          (∀ t ∈ ts, Owns K (bindParams span params context st).2 t) ∧
            Uses.All (Owns K (bindParams span params context st).2) c := by
  induction params with
  | nil =>
    intro context st h hc
    refine ⟨h.evolves_refl, fun ts c heq => ?_⟩
    obtain ⟨rfl, rfl⟩ : [] = ts ∧ context = c := by simpa [bindParams_nil] using heq
    exact ⟨by simp, hc⟩
  | cons param params ih =>
    intro context st h hc
    -- the parameter's variable is new, so it belongs to the region
    have h₀ := State.next_evolves h
    have hvar : Owns K st.next (.var ⟨st.count, none⟩) := h.owns_var none
    have hc₀ : Uses.All (Owns K st.next) context := fun e he t ht => (hc e he t ht).mono h₀.count_le
    have h₁ := equateAll_evolves span (parameterOf param) h₀.region hvar (hc₀.of param)
    rw [bindParams_cons, Context.uses_eq]
    rcases hres : equateAll span (parameterOf param) (.var ⟨st.count, none⟩) (Uses.of context param)
      st.next with ⟨_ | _, st₁⟩ <;> rw [hres] at h₁
    · exact ⟨h₀.trans h₁, fun _ _ heq => absurd heq (by simp)⟩
    -- what is left of the context is still over the region, for the other parameters
    · obtain ⟨h₂, hok⟩ := ih h₁.region
        (Uses.All.erase (fun e he t ht => (hc₀ e he t ht).mono h₁.count_le) param)
      simp only
      rcases hrest : bindParams span params (Table.erase context param) st₁ with
        ⟨_ | ⟨ts', c'⟩, st₂⟩ <;> rw [hrest] at h₂ hok
      · exact ⟨h₀.trans (h₁.trans h₂), fun _ _ heq => absurd heq (by simp)⟩
      · refine ⟨h₀.trans (h₁.trans h₂), fun ts c heq => ?_⟩
        obtain ⟨rfl, rfl⟩ : Term.var ⟨st.count, none⟩ :: ts' = ts ∧ c' = c := by simpa using heq
        obtain ⟨hts, hc'⟩ := hok ts' c' rfl
        refine ⟨fun t ht => ?_, hc'⟩
        rcases List.mem_cons.mp ht with rfl | ht
        · exact hvar.mono (le_trans h₁.count_le h₂.count_le)
        · exact hts t ht

theorem fnTyping_evolves (h : Region K st) {body : Typing} (hbody : body.All (Owns K st))
    (span : Span) (params : List String) :
    Evolves K st (fnTyping span params body st).2 ∧
      ∀ T, (fnTyping span params body st).1 = .ok T →
        T.All (Owns K (fnTyping span params body st).2) := by
  obtain ⟨hty, hcontext, -⟩ := Typing.all_iff.mp hbody
  obtain ⟨h₁, hok⟩ := bindParams_evolves span params h hcontext
  rw [fnTyping_eq]
  rcases hres : bindParams span params body.context st with ⟨_ | ⟨ts, c⟩, st₁⟩ <;>
    rw [hres] at h₁ hok
  · exact ⟨h₁, fun _ heq => absurd heq (by simp)⟩
  · refine ⟨h₁, fun T heq => ?_⟩
    obtain ⟨hts, hc⟩ := hok ts c rfl
    obtain rfl := Except.ok.inj heq
    exact Typing.all_iff.mpr
      ⟨.arrow (.product hts) (hty.mono h₁.count_le), hc, fun _ he => nomatch he⟩

/-- An application binds variables of the two instances; its mark of failure is over the two typings
themselves. -/
theorem applyTypings_evolves (h : Region K st) {fn arg : Typing} (hfn : fn.All (Owns K st))
    (harg : arg.All (Owns K st)) (span : Span) (fnRaw argRaw : Typing) :
    Evolves K st (applyTypings span fnRaw fn argRaw arg st).2 ∧
      ∀ M, (∀ n, K n → M n) → fnRaw.All (Owns M st) → argRaw.All (Owns M st) →
        (applyTypings span fnRaw fn argRaw arg st).1.All
          (Owns M (applyTypings span fnRaw fn argRaw arg st).2) := by
  obtain ⟨hfty, hfc, -⟩ := Typing.all_iff.mp hfn
  obtain ⟨haty, hac, -⟩ := Typing.all_iff.mp harg
  have h₀ := State.next_evolves h
  have hvar : Owns K st.next (.var ⟨st.count, none⟩) := h.owns_var none
  -- both sides of the equation are over the region: the copies, and a new variable
  have h₁ := State.unified_evolves h₀.region (hfty.mono h₀.count_le)
    (.arrow (haty.mono h₀.count_le) hvar)
  rw [applyTypings_eq]
  have hle := le_trans h₀.count_le h₁.count_le
  rcases (unify st.subst fn.ty (.arrow arg.ty (.var ⟨st.count, none⟩))).1 with cause | _
  -- the mark of failure has the types before they were copied, from a larger region perhaps
  · simp only
    have h₂ := State.logged_evolves h₁.region (.applicationFailed cause.message span.start)
    have h₃ := State.next_evolves h₂.region
    have hle₃ := le_trans hle (le_trans h₂.count_le h₃.count_le)
    refine ⟨h₀.trans (h₁.trans (h₂.trans h₃)), fun M hKM hf ha => Typing.all_closed.mpr ?_⟩
    have hother := (h₂.region.owns_var none).weaken hKM
    exact .failure ((Typing.all_iff.mp hf).1.mono hle₃)
      (.arrow ((Typing.all_iff.mp ha).1.mono hle₃) hother)
  · refine ⟨h₀.trans h₁, fun M hKM _ _ => Typing.all_iff.mpr
      ⟨(hvar.mono h₁.count_le).weaken hKM, ?_, fun _ he => nomatch he⟩⟩
    rw [Context.union_eq]
    exact .union (fun e he t ht => ((hfc e he t ht).mono hle).weaken hKM)
      fun e he t ht => ((hac e he t ht).mono hle).weaken hKM

/-! ### Resolving names -/

/-- A declared name takes an instance of its declaration, which is made equal to the uses. -/
theorem instance_evolves {defined : Defined} {name : String} {declared : Typing} {span : Span}
    {uses : List Ty} {result : Except Problem Unit} {st₁ : State} (h : Region K st)
    (hdef : ∀ e ∈ defined, e.2.All (Owns Anywhere st))
    (hget : Table.get? defined name = some declared) (huses : ∀ t ∈ uses, Owns K st t)
    (heq : equateAll span (useOf name) (instantiate declared st).1.ty uses
      ((instantiate declared st).2.logged (.resolved name uses.length)) = (result, st₁)) :
    Evolves K st st₁ ∧ Uses.All (Owns K st₁) (instantiate declared st).1.context := by
  obtain ⟨h₁, hcopy, -, -⟩ := instantiate_evolves h (hdef _ (Table.mem_of_get? hget))
  obtain ⟨hty, hcontext, -⟩ := Typing.all_iff.mp hcopy
  have h₂ := State.logged_evolves h₁.region (.resolved name uses.length)
  have h₃ := equateAll_evolves span (useOf name) h₂.region hty
    fun t ht => (huses t ht).mono h₁.count_le
  rw [heq] at h₃
  exact ⟨h₁.trans (h₂.trans h₃), fun e he t ht => (hcontext e he t ht).mono h₃.count_le⟩

/-- Resolving the names of a context binds variables of the context and of the instances made on the
way; the declarations themselves are not touched. -/
theorem ResolutionRun.evolves {defined : Defined} {span : Span} {depth : Nat} {chain : List String}
    {context out : Context} {res : Outcome Unit Context × State}
    (hrun : ResolutionRun defined span depth chain context out st res) (h : Region K st)
    (hdef : ∀ e ∈ defined, e.2.All (Owns Anywhere st)) (hc : Uses.All (Owns K st) context) :
    Evolves K st res.2 ∧
      ∀ M, (∀ n, K n → M n) → Uses.All (Owns M st) out → Uses.All (Owns M res.2) res.1.2 := by
  induction hrun with
  | nil => exact ⟨h.evolves_refl, fun M _ hout => hout⟩
  | @undeclared _ _ name _ _ _ _ _ _ _ ih =>
    rw [Uses.all_cons] at hc
    obtain ⟨h₁, hout⟩ := ih h hdef hc.2
    exact ⟨h₁, fun M hKM hM => hout M hKM
      (hM.passOut (fun t ht => (hc.1 t ht).weaken hKM) name)⟩
  | recursive => exact ⟨h.evolves_refl, fun M _ hout => hout⟩
  | clash hget _ heq =>
    rw [Uses.all_cons] at hc
    -- the copy is over new variables, so equating it with the uses stays in the region
    have h₁ := instance_evolves h hdef hget hc.1 heq
    exact ⟨h₁.1, fun M _ hout e he t ht => (hout e he t ht).mono h₁.1.count_le⟩
  | fail hget _ heq _ ih =>
    rw [Uses.all_cons] at hc
    have h₁ := instance_evolves h hdef hget hc.1 heq
    obtain ⟨h₂, hout⟩ := ih h₁.1.region
      (fun e he => (hdef e he).imp fun t ht => ht.mono h₁.1.count_le) h₁.2
    exact ⟨h₁.1.trans h₂, fun M hKM hM => hout M hKM fun e he t ht =>
      (hM e he t ht).mono h₁.1.count_le⟩
  | declared hget _ heq _ _ ih ihrest =>
    rw [Uses.all_cons] at hc
    have h₁ := instance_evolves h hdef hget hc.1 heq
    obtain ⟨h₂, hout⟩ := ih h₁.1.region
      (fun e he => (hdef e he).imp fun t ht => ht.mono h₁.1.count_le) h₁.2
    have hle := le_trans h₁.1.count_le h₂.count_le
    -- the others are resolved in a later state, where all that was owned is owned still
    obtain ⟨h₃, hrest⟩ := ihrest h₂.region
      (fun e he => (hdef e he).imp fun t ht => ht.mono hle)
      fun e he t ht => (hc.2 e he t ht).mono hle
    exact ⟨h₁.1.trans (h₂.trans h₃), fun M hKM hM => hrest M hKM (hout M hKM fun e he t ht =>
      (hM e he t ht).mono h₁.1.count_le)⟩

/-! ### Statements -/

namespace Evolves

/-- One computation after another, each with the variables that it allocates. -/
theorem step (h : Evolves (st.count ≤ ·) st st') (h' : Evolves (st'.count ≤ ·) st' st'') :
    Evolves (st.count ≤ ·) st st'' :=
  h.trans (h'.weaken h.region fun _ hn => le_trans h.count_le hn)

/-- Every region stays a region when only new variables are bound. -/
theorem region_of (h : Evolves (st.count ≤ ·) st st') (hM : Region M st) : Region M st' :=
  (h.weaken hM hM.fresh).region

end Evolves

/-- Typings without variables of the region are resolved as before. -/
theorem Evolves.apply_spared (h : Evolves K st st') (hs : st.subst.Acyclic)
    (hK : st.subst.ClosedOn (¬K ·)) {T : Typing} (hT : T.All (Owns (¬K ·) st)) :
    T.apply st'.subst = T.apply st.subst :=
  Typing.mapTypes_congr (hT.imp fun _ ht => h.apply_eq hs hK fun w hw => (ht w hw).1)

/-- Bindings of old variables do not lead to variables to come. -/
theorem Region.spares (h : Region K st) : st.subst.ClosedOn fun n => ¬st.count ≤ n :=
  fun n t _ hb w hw => Nat.not_le.mpr ((h.allocated n t hb).2 w hw)

theorem Owns.spared {t : Ty} (h : Owns K st t) : Owns (fun n => ¬st.count ≤ n) st t :=
  fun w hw => ⟨Nat.not_le.mpr (h w hw).2, (h w hw).2⟩

/-- Typings that were found before are resolved as before when only new variables are bound. -/
theorem Evolves.apply_typing (h : Evolves (st.count ≤ ·) st st') (hM : Region M st) {T : Typing}
    (hT : T.All (Owns Anywhere st)) : T.apply st'.subst = T.apply st.subst :=
  h.apply_spared hM.acyclic hM.spares (hT.imp fun _ ht => ht.spared)

/-- A solution extends to what was allocated and bound since. -/
theorem Evolves.exists_solution (h : Evolves (st.count ≤ ·) st st') (hM : Region M st)
    {η : Nat → Term Nat} (hη : Solves η st.subst) :
    Solves (st'.subst.extend η) st'.subst ∧ ∀ m < st.count, st'.subst.extend η m = η m := by
  refine ⟨h.region.acyclic.solves_extend η, fun m hm => ?_⟩
  rw [Subst.extend, h.apply_eq hM.acyclic (fun n u _ hb w hw => ?_) fun w hw => ?_]
  · exact hM.acyclic.extend_eq hη m
  · exact Nat.not_le.mpr ((hM.allocated n u hb).2 w hw)
  · rw [Ty.ids_var, List.mem_singleton] at hw
    exact hw ▸ Nat.not_le.mpr hm

theorem absorb_evolves {sofar stmt : Typing} (h : Region Anywhere st)
    (hsofar : sofar.All (Owns Anywhere st)) (hstmt : stmt.All (Owns Anywhere st)) (span : Span) :
    Evolves (st.count ≤ ·) st (absorb sofar span stmt st).2 ∧
      ∀ M, Region M st → sofar.All (Owns M st) → ∀ T, (absorb sofar span stmt st).1 = .ok T →
        T.All (Owns M (absorb sofar span stmt st).2) := by
  obtain ⟨h₁, hcopy, -, -⟩ := instantiate_evolves h.above hstmt
  obtain ⟨hty, hcontext, hdefined⟩ := Typing.all_iff.mp hcopy
  -- declarations so far stay in their region, and those of the statement are over new variables
  have hall : ∀ M, (∀ n, st.count ≤ n → M n) → sofar.All (Owns M st) →
      ∀ e ∈ Table.insertAll sofar.defined (instantiate stmt st).1.defined,
        e.2.All (Owns M (instantiate stmt st).2) := by
    intro M hM hs e he
    rcases Table.mem_insertAll he with he | he
    · exact ((Typing.all_iff.mp hs).2.2 e he).imp fun t ht => ht.mono h₁.count_le
    · exact (hdefined e he).imp fun t ht => ht.weaken hM
  obtain ⟨result, out, st₁, hrun, heq⟩ := absorb_run sofar span stmt st
  obtain ⟨h₂, hout⟩ := hrun.evolves h₁.region (hall Anywhere (fun _ _ => trivial) hsofar) hcontext
  rw [heq]
  refine ⟨h₁.trans h₂, fun M hM hs T hT => ?_⟩
  cases result with
  | error problem => cases hT
  | ok _ =>
    obtain rfl := Except.ok.inj hT
    refine Typing.all_iff.mpr ⟨(hty.mono h₂.count_le).weaken hM.fresh, ?_, fun e he =>
      (hall M hM.fresh hs e he).imp fun t ht => ht.mono h₂.count_le⟩
    exact hout M hM.fresh fun e he t ht =>
      ((Typing.all_iff.mp hs).2.1 e he t ht).mono h₁.count_le

/-! ### Nodes -/

/-- All the known typings of a tree are over a region. -/
def Tree.Owned (M : Nat → Prop) (st : State) (t : Tree Mark) : Prop :=
  t.Marked fun _ T => T.All (Owns M st)

theorem Tree.Owned.mono {t : Tree Mark} (h : t.Owned M st) (hle : st.count ≤ st'.count) :
    t.Owned M st' :=
  h.imp fun _ _ hT => hT.imp fun _ ht => ht.mono hle

theorem Tree.Owned.children {t : Tree Mark} (h : t.Owned M st) : ∀ c ∈ t.children, c.Owned M st :=
  (marked_iff.mp h).2

/-- What the inference of a node touches: only variables that it allocates.  The typings it finds
are over every region that the known typings are over. -/
def Evolving (t : Tree Mark) : Prop :=
  ∀ {st : State}, Region Anywhere st → t.Owned Anywhere st →
    Evolves (st.count ≤ ·) st (infer t st).2 ∧
      ∀ M, Region M st → t.Owned M st →
        (infer t st).1.2.Owned M (infer t st).2 ∧
          ∀ T, (infer t st).1.1 = .ok T → T.All (Owns M (infer t st).2)

theorem inferAll_evolves (ts : List (Tree Mark)) (ih : ∀ t ∈ ts, Evolving t) :
    ∀ {st : State}, Region Anywhere st → (∀ t ∈ ts, t.Owned Anywhere st) →
      Evolves (st.count ≤ ·) st (inferAll ts st).2 ∧
        ∀ M, Region M st → (∀ t ∈ ts, t.Owned M st) →
          (∀ t ∈ (inferAll ts st).1.2, t.Owned M (inferAll ts st).2) ∧
            ∀ Ts, (inferAll ts st).1.1 = .ok Ts →
              ∀ T ∈ Ts, T.All (Owns M (inferAll ts st).2) := by
  induction ts with
  | nil =>
    intro st h _
    refine ⟨h.above.evolves_refl, fun M _ _ => ⟨by simp [inferAll_nil], fun Ts heq => ?_⟩⟩
    obtain rfl : [] = Ts := by simpa [inferAll_nil] using heq
    simp
  | cons t ts ihs =>
    intro st h hts
    rw [List.forall_mem_cons] at ih hts
    obtain ⟨h₁, hown₁⟩ := ih.1 h hts.1
    rw [inferAll_cons]
    rcases hres : infer t st with ⟨⟨p | T, t'⟩, st₁⟩ <;> rw [hres] at h₁ hown₁
    · refine ⟨h₁, fun M hM hown => ⟨?_, fun _ heq => absurd heq (by simp)⟩⟩
      rw [List.forall_mem_cons] at hown ⊢
      exact ⟨(hown₁ M hM hown.1).1, fun t ht => (hown.2 t ht).mono h₁.count_le⟩
    -- what the first node owns is older than the variables that the others allocate
    · obtain ⟨h₂, hown₂⟩ := ihs ih.2 (h₁.region_of h) fun t ht => (hts.2 t ht).mono h₁.count_le
      simp only
      rcases hrest : inferAll ts st₁ with ⟨⟨p | Ts', ts'⟩, st₂⟩ <;> rw [hrest] at h₂ hown₂
      all_goals
        refine ⟨h₁.step h₂, fun M hM hown => ?_⟩
        rw [List.forall_mem_cons] at hown
        obtain ⟨hT', hT⟩ := hown₁ M hM hown.1
        obtain ⟨hTs', hTs⟩ := hown₂ M (h₁.region_of hM) fun t ht => (hown.2 t ht).mono h₁.count_le
        refine ⟨List.forall_mem_cons.mpr ⟨hT'.mono h₂.count_le, hTs'⟩, fun Ts heq => ?_⟩
      · exact absurd heq (by simp [Except.map])
      · obtain rfl : T :: Ts' = Ts := by simpa [Except.map] using heq
        exact List.forall_mem_cons.mpr ⟨(hT T rfl).imp fun t ht => ht.mono h₂.count_le,
          hTs Ts' rfl⟩

theorem inferStatements_evolves (stmts : List (Tree Mark)) (ih : ∀ t ∈ stmts, Evolving t) :
    ∀ {sofar : Typing} {st : State}, Region Anywhere st → sofar.All (Owns Anywhere st) →
      (∀ t ∈ stmts, t.Owned Anywhere st) →
      Evolves (st.count ≤ ·) st (inferStatements sofar stmts st).2 ∧
        ∀ M, Region M st → sofar.All (Owns M st) → (∀ t ∈ stmts, t.Owned M st) →
          (∀ t ∈ (inferStatements sofar stmts st).1.2,
            t.Owned M (inferStatements sofar stmts st).2) ∧
            ∀ T, (inferStatements sofar stmts st).1.1 = .ok T →
              T.All (Owns M (inferStatements sofar stmts st).2) := by
  induction stmts with
  | nil =>
    intro sofar st h _ _
    refine ⟨h.above.evolves_refl, fun M _ hs _ => ⟨by simp [inferStatements_nil], fun T heq => ?_⟩⟩
    obtain rfl : sofar = T := by simpa [inferStatements_nil] using heq
    exact hs
  | cons stmt stmts ihs =>
    intro sofar st h hsofar hts
    rw [List.forall_mem_cons] at ih hts
    -- a line of the log, the statement, and taking it in: three steps over new variables
    have h₀ := State.logged_evolves h.above (.statement stmt.kind stmt.label.span.start)
    obtain ⟨h₁, hown₁⟩ := ih.1 (h₀.region_of h) hts.1
    replace h₁ := h₀.step h₁
    rw [inferStatements_cons]
    rcases hres : infer stmt _ with ⟨⟨p | raw, stmt'⟩, st₁⟩ <;> rw [hres] at h₁ hown₁
    · refine ⟨h₁, fun M hM _ hown => ⟨?_, fun _ heq => absurd heq (by simp)⟩⟩
      rw [List.forall_mem_cons] at hown ⊢
      exact ⟨(hown₁ M (h₀.region_of hM) hown.1).1, fun t ht => (hown.2 t ht).mono h₁.count_le⟩
    · obtain ⟨h₂, hok₂⟩ := absorb_evolves (h₁.region_of h)
        (hsofar.imp fun t ht => ht.mono h₁.count_le)
        ((hown₁ Anywhere (h₀.region_of h) hts.1).2 raw rfl) stmt'.label.span
      simp only
      rcases habs : absorb sofar stmt'.label.span raw st₁ with ⟨p | sofar', st₂⟩ <;>
        rw [habs] at h₂ hok₂
      · refine ⟨h₁.step h₂, fun M hM _ hown => ⟨?_, fun _ heq => absurd heq (by simp)⟩⟩
        rw [List.forall_mem_cons] at hown ⊢
        exact ⟨(hown₁ M (h₀.region_of hM) hown.1).1.mono h₂.count_le, fun t ht =>
          (hown.2 t ht).mono (le_trans h₁.count_le h₂.count_le)⟩
      · have h₁₂ := h₁.step h₂
        -- the others start from what was taken in, which is over variables that exist by then
        obtain ⟨h₃, hown₃⟩ := ihs ih.2 (h₁₂.region_of h)
          (hok₂ Anywhere (h₁.region_of h) (hsofar.imp fun t ht => ht.mono h₁.count_le) sofar' rfl)
          fun t ht => (hts.2 t ht).mono h₁₂.count_le
        simp only
        rcases hrest : inferStatements sofar' stmts st₂ with ⟨⟨r, stmts'⟩, st₃⟩
        rw [hrest] at h₃ hown₃
        refine ⟨h₁₂.step h₃, fun M hM hs hown => ?_⟩
        rw [List.forall_mem_cons] at hown
        obtain ⟨hTs', hT⟩ := hown₃ M (h₁₂.region_of hM)
          (hok₂ M (h₁.region_of hM) (hs.imp fun t ht => ht.mono h₁.count_le) sofar' rfl)
          fun t ht => (hown.2 t ht).mono h₁₂.count_le
        exact ⟨List.forall_mem_cons.mpr ⟨(hown₁ M (h₀.region_of hM) hown.1).1.mono
          (le_trans h₂.count_le h₃.count_le), hTs'⟩, hT⟩

/-- Keeping a typing over a region at the root. -/
theorem Tree.settle_owned {t : Tree Mark} (h : t.label.typing = none)
    (hc : ∀ c ∈ t.children, c.Owned M st) {r : Except Problem Typing}
    (hr : ∀ T, r = .ok T → T.All (Owns M st)) :
    (t.settle r).2.Owned M st ∧ ∀ T, (t.settle r).1 = .ok T → T.All (Owns M st) :=
  ⟨(marked_settle h).mpr ⟨hr, hc⟩, fun T heq => hr T (by rwa [settle_fst] at heq)⟩

/-- A node that gets no typing. -/
theorem Tree.refused_owned {t : Tree Mark} (h : t.label.typing = none)
    (hc : ∀ c ∈ t.children, c.Owned M st) {problem : Problem} :
    t.Owned M st ∧ ∀ T, (.error problem : Except Problem Typing) = .ok T → T.All (Owns M st) :=
  ⟨marked_iff.mpr ⟨fun T hT => absurd hT (by simp [h]), hc⟩, fun _ heq => nomatch heq⟩

/-- A property that passes to products passes to the typing of a tuple. -/
theorem tupleTyping_all {P : Ty → Prop} (hP : ∀ ts, (∀ t ∈ ts, P t) → P (.product ts))
    {Ts : List Typing} (h : ∀ T ∈ Ts, T.All P) : (tupleTyping Ts).All P := by
  refine Typing.all_iff.mpr ⟨hP _ fun t ht => ?_, ?_, fun _ he => nomatch he⟩
  · obtain ⟨T, hT, rfl⟩ := List.mem_map.mp ht
    exact (Typing.all_iff.mp (h T hT)).1
  · have key : ∀ c : Context, Uses.All P c →
        Uses.All P (Ts.foldl (fun c T => c.union T.context) c) := by
      induction Ts with
      | nil => exact fun c hc => hc
      | cons T Ts ih =>
        rw [List.forall_mem_cons] at h
        exact fun c hc => ih h.2 _ (hc.union (Typing.all_iff.mp h.1).2.1)
    exact key [] Uses.all_nil

/-- A function applied to its argument. -/
theorem evolving_apply {m : Mark} {fn arg : Tree Mark} (hm : m.typing = none) (ihf : Evolving fn)
    (iha : Evolving arg) : Evolving (.apply m fn arg) := by
  intro st h hown
  have hfn := hown.children fn (by simp [Tree.children])
  have harg := hown.children arg (by simp [Tree.children])
  obtain ⟨h₁, hown₁⟩ := ihf h hfn
  rw [infer_apply hm]
  rcases hres : infer fn st with ⟨⟨p | fnRaw, fn'⟩, st₁⟩ <;> rw [hres] at h₁ hown₁
  · refine ⟨h₁, fun M hM hown => Tree.refused_owned (t := .apply m fn' arg) hm ?_⟩
    have hfn := hown.children fn (by simp [Tree.children])
    have harg := hown.children arg (by simp [Tree.children])
    simpa [Tree.children] using ⟨(hown₁ M hM hfn).1, harg.mono h₁.count_le⟩
  · obtain ⟨h₂, hcopy, -, -⟩ := instantiate_evolves h₁.region
      ((hown₁ Anywhere h hfn).2 fnRaw rfl)
    have h₁₂ := h₁.trans h₂
    obtain ⟨h₃, hown₃⟩ := iha (h₁₂.region_of h) (harg.mono h₁₂.count_le)
    have h₁₃ := h₁₂.step h₃
    simp only
    rcases hres' : infer arg (instantiate fnRaw st₁).2 with ⟨⟨p | argRaw, arg'⟩, st₂⟩ <;>
      rw [hres'] at h₃ hown₃ h₁₃
    · refine ⟨h₁₃, fun M hM hown => Tree.refused_owned (t := .apply m fn' arg') hm ?_⟩
      have hfn := hown.children fn (by simp [Tree.children])
      have harg := hown.children arg (by simp [Tree.children])
      simpa [Tree.children] using ⟨(hown₁ M hM hfn).1.mono (le_trans h₂.count_le h₃.count_le),
        (hown₃ M (h₁₂.region_of hM) (harg.mono h₁₂.count_le)).1⟩
    · -- both instances are over variables that were allocated for this node
      obtain ⟨h₄, hcopy', -, -⟩ := instantiate_evolves h₁₃.region
        ((hown₃ Anywhere (h₁₂.region_of h) (harg.mono h₁₂.count_le)).2 argRaw rfl)
      obtain ⟨h₅, htyping⟩ := applyTypings_evolves h₄.region
        (hcopy.imp fun t ht => ht.mono (le_trans h₃.count_le h₄.count_le)) hcopy' m.span fnRaw
        argRaw
      refine ⟨h₁₃.trans (h₄.trans h₅), fun M hM hown => ?_⟩
      have hle₃ := le_trans h₄.count_le h₅.count_le
      have hle₁ := le_trans h₂.count_le (le_trans h₃.count_le hle₃)
      obtain ⟨hfn', hfnRaw⟩ := hown₁ M hM (hown.children fn (by simp [Tree.children]))
      obtain ⟨harg', hargRaw⟩ := hown₃ M (h₁₂.region_of hM)
        ((hown.children arg (by simp [Tree.children])).mono h₁₂.count_le)
      refine Tree.settle_owned (t := .apply m fn' arg') hm ?_ fun T heq => ?_
      · simpa [Tree.children] using ⟨hfn'.mono hle₁, harg'.mono hle₃⟩
      · obtain rfl := Except.ok.inj heq
        exact htyping M hM.fresh
          ((hfnRaw fnRaw rfl).imp fun t ht =>
            ht.mono (le_trans h₂.count_le (le_trans h₃.count_le h₄.count_le)))
          ((hargRaw argRaw rfl).imp fun t ht => ht.mono h₄.count_le)

/-- A function, whose parameters are bound in an instance of its body's typing. -/
theorem evolving_fn {m : Mark} {params : List String} {body : Tree Mark} (hm : m.typing = none)
    (ih : Evolving body) : Evolving (.fn m params body) := by
  intro st h hown
  have hbody := hown.children body (by simp [Tree.children])
  obtain ⟨h₁, hown₁⟩ := ih h hbody
  rw [infer_fn hm]
  rcases hres : infer body st with ⟨⟨p | raw, body'⟩, st₁⟩ <;> rw [hres] at h₁ hown₁
  · refine ⟨h₁, fun M hM hown => Tree.refused_owned (t := .fn m params body') hm ?_⟩
    simpa [Tree.children] using
      (hown₁ M hM (hown.children body (by simp [Tree.children]))).1
  -- the copy is over new variables, and so the parameters are bound to types over new ones
  · obtain ⟨h₂, hcopy, -, -⟩ := instantiate_evolves h₁.region
      ((hown₁ Anywhere h hbody).2 raw rfl)
    obtain ⟨h₃, htyping⟩ := fnTyping_evolves h₂.region hcopy m.span params
    simp only
    rcases hty : fnTyping m.span params (instantiate raw st₁).1 (instantiate raw st₁).2 with
      ⟨result, st₂⟩
    rw [hty] at h₃ htyping
    refine ⟨h₁.trans (h₂.trans h₃), fun M hM hown => ?_⟩
    obtain ⟨hbody', -⟩ := hown₁ M hM (hown.children body (by simp [Tree.children]))
    refine Tree.settle_owned (t := .fn m params body') hm ?_ fun T heq => ?_
    · simpa [Tree.children] using hbody'.mono (le_trans h₂.count_le h₃.count_le)
    · exact (htyping T heq).imp fun t ht => ht.weaken hM.fresh

/-- **The inference of a node binds only variables that it allocates.** -/
theorem infer_evolves (t : Tree Mark) : Evolving t := by
  induction t using Tree.pendingInduction with
  | known t T hT =>
    intro st h _
    rw [infer_known hT]
    refine ⟨h.above.evolves_refl, fun M _ hown => ⟨hown, fun T' heq => ?_⟩⟩
    obtain rfl := Except.ok.inj heq
    exact (Tree.marked_iff.mp hown).1 T hT
  | int m value hm =>
    intro st h _
    rw [infer_int hm]
    refine ⟨h.above.evolves_refl, fun M _ _ =>
      Tree.settle_owned (t := .int m value) hm (by simp [Tree.children]) fun T heq => ?_⟩
    obtain rfl := Except.ok.inj heq
    exact Typing.all_closed.mpr (.con (by simp))
  | array m elems hm =>
    intro st h _
    rw [infer_array hm]
    exact ⟨h.above.evolves_refl, fun M _ hown =>
      Tree.refused_owned (t := .array m elems) hm hown.children⟩
  | assign m name value hm =>
    intro st h _
    rw [infer_assign hm]
    exact ⟨h.above.evolves_refl, fun M _ hown =>
      Tree.refused_owned (t := .assign m name value) hm hown.children⟩
  | var m name hm =>
    intro st h _
    rw [infer_var hm]
    refine ⟨State.next_evolves h.above, fun M hM _ =>
      Tree.settle_owned (t := .var m name) hm (by simp [Tree.children]) fun T heq => ?_⟩
    obtain rfl := Except.ok.inj heq
    have hvar := hM.owns_var (some useTag)
    exact Typing.all_iff.mpr ⟨hvar, by simpa [Context.singleton] using hvar, by simp⟩
  | tuple m elems hm ih =>
    intro st h hown
    obtain ⟨h₁, hown₁⟩ := inferAll_evolves elems ih h (Tree.marked_iff.mp hown).2
    rw [infer_tuple hm]
    rcases hres : inferAll elems st with ⟨⟨r, elems'⟩, st₁⟩
    rw [hres] at h₁ hown₁
    refine ⟨h₁, fun M hM hown => ?_⟩
    obtain ⟨helems, hTs⟩ := hown₁ M hM (Tree.marked_iff.mp hown).2
    refine Tree.settle_owned (t := .tuple m elems') hm helems fun T heq => ?_
    cases r with
    | error p => exact absurd heq (by simp [Except.map])
    | ok Ts =>
      obtain rfl := Except.ok.inj heq
      exact tupleTyping_all (fun _ => .product) (hTs Ts rfl)
  | apply m fn arg hm ihf iha => exact evolving_apply hm ihf iha
  | fn m params body hm ih => exact evolving_fn hm ih
  | decl m name value hm ih =>
    intro st h hown
    obtain ⟨h₁, hown₁⟩ := ih h (hown.children value (by simp [Tree.children]))
    rw [infer_decl hm]
    rcases hres : infer value st with ⟨⟨r, value'⟩, st₁⟩
    rw [hres] at h₁ hown₁
    refine ⟨h₁, fun M hM hown => ?_⟩
    obtain ⟨hvalue, hraw⟩ := hown₁ M hM (hown.children value (by simp [Tree.children]))
    refine Tree.settle_owned (t := .decl m name value') hm (by simpa [Tree.children])
      fun T heq => ?_
    cases r with
    | error p => exact absurd heq (by simp [Except.map])
    | ok raw =>
      obtain rfl := Except.ok.inj heq
      exact Typing.all_iff.mpr
        ⟨.con (by simp), Uses.all_nil, by simpa [declTyping] using hraw raw rfl⟩
  | ret m value hm ih =>
    intro st h hown
    obtain ⟨h₁, hown₁⟩ := ih h (hown.children value (by simp [Tree.children]))
    rw [infer_ret hm]
    rcases hres : infer value st with ⟨⟨r, value'⟩, st₁⟩
    rw [hres] at h₁ hown₁
    refine ⟨h₁, fun M hM hown => ?_⟩
    obtain ⟨hvalue, hraw⟩ := hown₁ M hM (hown.children value (by simp [Tree.children]))
    exact Tree.settle_owned (t := .ret m value') hm (by simpa [Tree.children]) hraw
  | block m stmts hm ih =>
    intro st h hown
    obtain ⟨h₁, hown₁⟩ := inferStatements_evolves stmts ih h Owns.closed_unit hown.children
    rw [infer_block hm]
    rcases hres : inferStatements (.closed .unit) stmts st with ⟨⟨r, stmts'⟩, st₁⟩
    rw [hres] at h₁ hown₁
    refine ⟨h₁, fun M hM hown => ?_⟩
    obtain ⟨hstmts, hT⟩ := hown₁ M hM Owns.closed_unit hown.children
    exact Tree.settle_owned (t := .block m stmts') hm hstmts hT

end LetTyping
