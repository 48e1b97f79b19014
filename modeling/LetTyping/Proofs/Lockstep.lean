import LetTyping.Proofs.Mirror
import LetTyping.Proofs.Region

/-!
# Runs in lockstep

Two runs of the same rule, in states that have nothing to do with each other but for some variables
of the one that are renamed to variables of the other.  The runs allocate variables side by side, so
that the renaming grows; they bind the same variables to the same types, and either both go on or
both end with the same problem.

## Main definitions

* `Lockstep` — two states have the same bindings for some variables, up to renaming.
* `Renamed` — a typing over these variables and its renaming.
* `InStep` — two results are the same problem, or related results in states in lockstep.
* `Tandem` — so are two results, and the states are in lockstep also after a problem.

## Main results

* `Lockstep.evolve` — states stay in lockstep when only new variables are bound.
* `Lockstep.instantiate` — the instances of typings that are alike are renamings of each other.
* `fnTyping_inStep`, `absorb_inStep`, `applyTypings_alike` — **the rules do the same in lockstep.**
-/

namespace LetTyping

variable {K K' : Nat → Prop} {f f' : Nat → Nat} {st st' : State}

/-! ### Renamings that grow -/

/-- The renaming `f'` of the variables in `K'` extends the renaming `f` of those in `K`. -/
def Extends (K : Nat → Prop) (f : Nat → Nat) (K' : Nat → Prop) (f' : Nat → Nat) : Prop :=
  ∀ n, K n → K' n ∧ f' n = f n

namespace Extends

theorem refl (K : Nat → Prop) (f : Nat → Nat) : Extends K f K f := fun _ hn => ⟨hn, rfl⟩

theorem trans {K'' : Nat → Prop} {f'' : Nat → Nat} (h : Extends K f K' f')
    (h' : Extends K' f' K'' f'') : Extends K f K'' f'' := fun n hn =>
  ⟨(h' n (h n hn).1).1, (h' n (h n hn).1).2.trans (h n hn).2⟩

theorem mono (h : Extends K f K' f') {t : Ty} (ht : Over K t) : Over K' t :=
  fun w hw => (h w (ht w hw)).1

theorem rename (h : Extends K f K' f') {t : Ty} (ht : Over K t) : t.rename f' = t.rename f :=
  Ty.rename_congr fun w hw => (h w (ht w hw)).2

theorem map_rename (h : Extends K f K' f') {ts : List Ty} (hts : ∀ t ∈ ts, Over K t) :
    ts.map (Ty.rename f') = ts.map (Ty.rename f) :=
  List.map_congr_left fun t ht => h.rename (hts t ht)

theorem usesMap_rename (h : Extends K f K' f') {c : Context} (hc : Uses.All (Over K) c) :
    Uses.map (Ty.rename f') c = Uses.map (Ty.rename f) c :=
  Uses.map_congr fun e he t ht => h.rename (hc e he t ht)

end Extends

/-- A typing over the variables in `K`, and its renaming. -/
def Renamed (K : Nat → Prop) (f : Nat → Nat) (T T' : Typing) : Prop :=
  T.All (Over K) ∧ T' = T.rename f

theorem Renamed.extend {T T' : Typing} (h : Renamed K f T T') (hext : Extends K f K' f') :
    Renamed K' f' T T' :=
  ⟨h.1.imp fun _ ht => hext.mono ht, h.2.trans
    (Typing.rename_congr fun w hw => (hext w (Typing.forall_mem_ids.mpr h.1 w hw)).2).symm⟩

/-! ### States -/

/-- The state `st'` has the bindings that `st` has for the variables in `K`, up to renaming. -/
structure Lockstep (K : Nat → Prop) (f : Nat → Nat) (st st' : State) : Prop where
  left : Region Anywhere st
  right : Region Anywhere st'
  mirrors : st.subst.Mirrors K f st'.subst
  allocated : ∀ n, K n → n < st.count ∧ f n < st'.count

/-- States that share no variables are in lockstep. -/
theorem Lockstep.start (h : Region Anywhere st) (h' : Region Anywhere st') :
    Lockstep (fun _ => False) id st st' :=
  ⟨h, h', ⟨fun _ _ hn => hn.elim, fun _ hn => hn.elim, fun _ hn => hn.elim⟩, fun _ hn => hn.elim⟩

/-- A state is in lockstep with itself. -/
theorem Lockstep.refl (h : Region Anywhere st) : Lockstep (· < st.count) id st st where
  left := h
  right := h
  mirrors := by
    refine ⟨fun n t _ hb => (h.allocated n t hb).2, Set.injOn_id _, fun n _ => ?_⟩
    rw [id, Option.map_congr fun t _ => t.rename_id, Option.map_id']
  allocated := fun _ hn => ⟨hn, hn⟩

/-- Typings over the variables of a state are their own renamings. -/
theorem Renamed.refl {T : Typing} (hT : T.All (Owns Anywhere st)) : Renamed (· < st.count) id T T :=
  ⟨hT.imp fun _ ht w hw => (ht w hw).2, T.rename_id.symm⟩

namespace Lockstep

theorem owns (h : Lockstep K f st st') {t : Ty} (ht : Over K t) : Owns Anywhere st t :=
  fun w hw => ⟨trivial, (h.allocated w (ht w hw)).1⟩

theorem owns_rename (h : Lockstep K f st st') {t : Ty} (ht : Over K t) :
    Owns Anywhere st' (t.rename f) := by
  intro w hw
  rw [Ty.ids_rename, List.mem_map] at hw
  obtain ⟨n, hn, rfl⟩ := hw
  exact ⟨trivial, (h.allocated n (ht n hn)).2⟩

/-- Typings are resolved alike. -/
theorem alike (h : Lockstep K f st st') {T T' : Typing} (hT : Renamed K f T T') :
    Alike (T.apply st.subst) (T'.apply st'.subst) := by
  obtain ⟨hover, rfl⟩ := hT
  refine ⟨f, h.mirrors.injOn.mono ?_, ?_⟩
  · refine Typing.forall_mem_ids.mpr (Typing.all_mapTypes.mpr (hover.imp fun t ht => ?_))
    exact h.left.acyclic.ids_apply_subset h.mirrors.closed ht
  · rw [Typing.apply, Typing.rename, Typing.mapTypes_mapTypes, Typing.apply, Typing.rename,
      Typing.mapTypes_mapTypes]
    exact Typing.mapTypes_congr (hover.imp fun t ht =>
      h.mirrors.apply_rename h.left.acyclic h.right.acyclic ht)

/-- States stay in lockstep when only new variables are bound. -/
theorem evolve (h : Lockstep K f st st') {st₁ st₁' : State} (hev : Evolves (st.count ≤ ·) st st₁)
    (hev' : Evolves (st'.count ≤ ·) st' st₁') : Lockstep K f st₁ st₁' where
  left := hev.region.all
  right := hev'.region.all
  mirrors := by
    have hkept : ∀ n, K n → st₁.subst[n]? = st.subst[n]? := fun n hn =>
      hev.kept n (Nat.not_le.mpr (h.allocated n hn).1)
    refine ⟨fun n t hn hb => h.mirrors.closed n t hn (hkept n hn ▸ hb), h.mirrors.injOn,
      fun n hn => ?_⟩
    rw [hev'.kept (f n) (Nat.not_le.mpr (h.allocated n hn).2), hkept n hn, h.mirrors.binding n hn]
  allocated := fun n hn => ⟨lt_of_lt_of_le (h.allocated n hn).1 hev.count_le,
    lt_of_lt_of_le (h.allocated n hn).2 hev'.count_le⟩

theorem logged (h : Lockstep K f st st') (event event' : Event) :
    Lockstep K f (st.logged event) (st'.logged event') :=
  h.evolve (State.logged_evolves h.left.above event) (State.logged_evolves h.right.above event')

/-- Unification does the same on both sides. -/
theorem unified (h : Lockstep K f st st') {a b : Ty} (ha : Over K a) (hb : Over K b) :
    (unify st'.subst (a.rename f) (b.rename f)).1 = (unify st.subst a b).1 ∧
      Lockstep K f (st.unified a b) (st'.unified (a.rename f) (b.rename f)) := by
  obtain ⟨hres, hm⟩ := unify_mirrors h.mirrors h.left.acyclic h.right.acyclic ha hb
  exact ⟨hres, (State.unified_evolves h.left (h.owns ha) (h.owns hb)).region,
    (State.unified_evolves h.right (h.owns_rename ha) (h.owns_rename hb)).region, hm, h.allocated⟩

/-! ### Allocations -/

/-- The renaming after allocations on both sides takes the new variables to each other in order. -/
def shift (f : Nat → Nat) (first first' n : Nat) : Nat :=
  if n < first then f n else n - first + first'

/-- Variables are allocated side by side. -/
theorem allocate (h : Lockstep K f st st') {st₁ st₁' : State}
    (hev : Evolves (st.count ≤ ·) st st₁) (hev' : Evolves (st'.count ≤ ·) st' st₁')
    (hsubst : st₁.subst = st.subst) (hsubst' : st₁'.subst = st'.subst) {k : Nat}
    (hcount : st₁.count = st.count + k) (hcount' : st₁'.count = st'.count + k) :
    Extends K f (fun n => K n ∨ st.count ≤ n ∧ n < st₁.count) (shift f st.count st'.count) ∧
      Lockstep (fun n => K n ∨ st.count ≤ n ∧ n < st₁.count) (shift f st.count st'.count)
        st₁ st₁' := by
  -- the renaming is the old one below the count, and shifts what comes behind
  have hold : ∀ n, K n → shift f st.count st'.count n = f n := fun n hn =>
    if_pos (h.allocated n hn).1
  have hnew : ∀ n, st.count ≤ n → shift f st.count st'.count n = n - st.count + st'.count :=
    fun n hn => if_neg (Nat.not_lt.mpr hn)
  refine ⟨fun n hn => ⟨Or.inl hn, hold n hn⟩, hev.region.all, hev'.region.all,
    ⟨fun n t hn hb w hw => ?_, ?_, ?_⟩, ?_⟩
  -- closed: new variables are unbound
  · rw [hsubst] at hb
    rcases hn with hn | ⟨hn, -⟩
    · exact Or.inl (h.mirrors.closed n t hn hb w hw)
    · rw [h.left.unbound hn] at hb
      exact absurd hb (by simp)
  -- injective: images of old variables are allocated, and those of new ones lie behind these
  · rintro m (hm | ⟨hm, -⟩) n (hn | ⟨hn, -⟩) heq
    · rw [hold m hm, hold n hn] at heq
      exact h.mirrors.injOn hm hn heq
    · rw [hold m hm, hnew n hn] at heq
      have := (h.allocated m hm).2
      omega
    · rw [hnew m hm, hold n hn] at heq
      have := (h.allocated n hn).2
      omega
    · rw [hnew m hm, hnew n hn] at heq
      omega
  -- bindings are mirrored, since none has been made
  · rintro n (hn | ⟨hn, -⟩)
    · rw [hsubst, hsubst', hold n hn, h.mirrors.binding n hn, Option.map_congr fun t ht => ?_]
      exact (Ty.rename_congr fun w hw => hold w (h.mirrors.closed n t hn ht w hw)).symm
    · rw [hsubst, hsubst', hnew n hn, h.left.unbound hn, h.right.unbound (by omega)]
      rfl
  · rintro n (hn | ⟨hn, hlt⟩)
    · have := h.allocated n hn
      rw [hold n hn]
      omega
    · rw [hnew n hn]
      omega

/-- One variable more on both sides. -/
theorem next (h : Lockstep K f st st') (tag : Option String) :
    ∃ K' f', Extends K f K' f' ∧ Lockstep K' f' st.next st'.next ∧
      Over K' (.var ⟨st.count, tag⟩) ∧
      Ty.rename f' (.var ⟨st.count, tag⟩) = .var ⟨st'.count, tag⟩ := by
  obtain ⟨hext, hlock⟩ := h.allocate (State.next_evolves h.left.above)
    (State.next_evolves h.right.above) rfl rfl (k := 1) rfl rfl
  refine ⟨_, _, hext, hlock, fun w hw => ?_, ?_⟩
  · rw [Ty.ids_var, List.mem_singleton] at hw
    exact Or.inr ⟨hw.ge, hw ▸ Nat.lt_succ_self _⟩
  · rw [Ty.rename_var, TVar.rename, shift, if_neg (Nat.lt_irrefl _), Nat.sub_self, Nat.zero_add]

/-- **The instances of typings that are alike are renamings of each other.** -/
theorem instantiate (h : Lockstep K f st st') {T T' : Typing} (hT : T.All (Owns Anywhere st))
    (hT' : T'.All (Owns Anywhere st')) (halike : Alike (T.apply st.subst) (T'.apply st'.subst)) :
    ∃ K' f', Extends K f K' f' ∧
      Lockstep K' f' (LetTyping.instantiate T st).2 (LetTyping.instantiate T' st').2 ∧
      Renamed K' f' (LetTyping.instantiate T st).1 (LetTyping.instantiate T' st').1 := by
  obtain ⟨hev, -, hnew, heq⟩ := instantiate_evolves h.left.above hT
  obtain ⟨hev', -, -, heq'⟩ := instantiate_evolves h.right.above hT'
  obtain ⟨g, hg, hR⟩ := halike
  have hfree : (T'.apply st'.subst).freeVars.length = (T.apply st.subst).freeVars.length := by
    rw [hR, Typing.freeVars_rename hg, List.length_map]
  obtain ⟨hext, hlock⟩ := h.allocate hev hev' (by rw [heq]) (by rw [heq'])
    (k := (T.apply st.subst).freeVars.length) (by rw [heq]) (by rw [heq', hfree])
  refine ⟨_, _, hext, hlock, hnew.imp fun t ht w hw => Or.inr (ht w hw), ?_⟩
  rw [heq', hR, Typing.renumber_rename hg st.count st'.count, heq]
  refine Typing.rename_congr fun w hw => ?_
  rw [heq] at hnew
  have hge := (Typing.forall_mem_ids.mpr hnew w hw).1
  rw [shift, if_neg (Nat.not_lt.mpr hge)]

end Lockstep

/-! ### The rules -/

/-- Two results are the same problem, or related results in states in lockstep. -/
inductive InStep {α : Type} (K : Nat → Prop) (f : Nat → Nat)
    (R : (Nat → Prop) → (Nat → Nat) → α → α → Prop) :
    Except Problem α × State → Except Problem α × State → Prop
  | ok {K' f' a a' st st'} : Extends K f K' f' → Lockstep K' f' st st' → R K' f' a a' →
      InStep K f R (.ok a, st) (.ok a', st')
  | error {problem st st'} : InStep K f R (.error problem, st) (.error problem, st')

theorem InStep.extend {α : Type} {R : (Nat → Prop) → (Nat → Nat) → α → α → Prop}
    {x x' : Except Problem α × State} (h : InStep K' f' R x x') (hext : Extends K f K' f') :
    InStep K f R x x' := by
  cases h with
  | ok hext' hlock hR => exact .ok (hext.trans hext') hlock hR
  | error => exact .error

/-- Two runs keep step to their ends: they end with the same problem or with related results, in
states in lockstep. -/
inductive Tandem {α : Type} (K : Nat → Prop) (f : Nat → Nat)
    (R : (Nat → Prop) → (Nat → Nat) → α → α → Prop) :
    Except Problem α × State → Except Problem α × State → Prop
  | ok {K' f' a a' st st'} : Extends K f K' f' → Lockstep K' f' st st' → R K' f' a a' →
      Tandem K f R (.ok a, st) (.ok a', st')
  | error {K' f' problem st st'} : Extends K f K' f' → Lockstep K' f' st st' →
      Tandem K f R (.error problem, st) (.error problem, st')

namespace Tandem

variable {α : Type} {R : (Nat → Prop) → (Nat → Nat) → α → α → Prop}
  {x x' : Except Problem α × State}

theorem extend (h : Tandem K' f' R x x') (hext : Extends K f K' f') : Tandem K f R x x' := by
  cases h with
  | ok hext' hlock hR => exact .ok (hext.trans hext') hlock hR
  | error hext' hlock => exact .error (hext.trans hext') hlock

theorem inStep (h : Tandem K f R x x') : InStep K f R x x' := by
  cases h with
  | ok hext hlock hR => exact .ok hext hlock hR
  | error => exact .error

/-- The states at the ends are in lockstep. -/
theorem lockstep (h : Tandem K f R x x') :
    ∃ K' f', Extends K f K' f' ∧ Lockstep K' f' x.2 x'.2 := by
  cases h with
  | ok hext hlock _ => exact ⟨_, _, hext, hlock⟩
  | error hext hlock => exact ⟨_, _, hext, hlock⟩

end Tandem

theorem equate_tandem (h : Lockstep K f st st') {a b : Ty} (ha : Over K a) (hb : Over K b)
    (span : Span) (description : String) :
    Tandem K f (fun _ _ _ _ => True) (equate span description a b st)
      (equate span description (a.rename f) (b.rename f) st') := by
  obtain ⟨hres, hlock⟩ := h.unified ha hb
  rw [equate_eq, equate_eq, hres]
  cases (unify st.subst a b).1 with
  | error cause => exact .error (.refl K f) hlock
  | ok _ => exact .ok (.refl K f) hlock trivial

theorem equateAll_tandem {a : Ty} {bs : List Ty} (span : Span) (description : String)
    (h : Lockstep K f st st') (ha : Over K a) (hbs : ∀ b ∈ bs, Over K b) :
    Tandem K f (fun _ _ _ _ => True) (equateAll span description a bs st)
      (equateAll span description (a.rename f) (bs.map (Ty.rename f)) st') := by
  induction bs generalizing K f st st' with
  | nil => exact .ok (.refl K f) h trivial
  | cons b bs ih =>
    rw [List.forall_mem_cons] at hbs
    have h₁ := equate_tandem h ha hbs.1 span description
    rw [List.map_cons, equateAll_cons, equateAll_cons]
    generalize equate span description a b st = x at h₁ ⊢
    generalize equate span description (a.rename f) (b.rename f) st' = x' at h₁ ⊢
    cases h₁ with
    | error hext hlock => exact .error hext hlock
    | ok hext hlock _ =>
      -- the type was over the smaller set, where the larger renaming does what the smaller one did
      have h₂ := ih hlock (hext.mono ha) fun b hb => hext.mono (hbs.2 b hb)
      rw [hext.rename ha, hext.map_rename hbs.2] at h₂
      exact h₂.extend hext

/-- The types of parameters and the remaining uses, with their renamings. -/
def RenamedParams (K : Nat → Prop) (f : Nat → Nat) (x x' : List Ty × Context) : Prop :=
  (∀ t ∈ x.1, Over K t) ∧ Uses.All (Over K) x.2 ∧
    x' = (x.1.map (Ty.rename f), Uses.map (Ty.rename f) x.2)

theorem bindParams_inStep (span : Span) (params : List String) {context : Context}
    (h : Lockstep K f st st') (hc : Uses.All (Over K) context) :
    InStep K f RenamedParams (bindParams span params context st)
      (bindParams span params (Uses.map (Ty.rename f) context) st') := by
  induction params generalizing K f st st' context with
  | nil => exact .ok (.refl K f) h ⟨by simp, hc, rfl⟩
  | cons param params ih =>
    -- both runs take a new variable for the parameter, and the renaming is extended by the pair
    obtain ⟨K₁, f₁, hext, hlock, hvar, hrename⟩ := h.next none
    have hc₁ : Uses.All (Over K₁) context := fun e he t ht => hext.mono (hc e he t ht)
    have h₁ := equateAll_tandem span (parameterOf param) hlock hvar (hc₁.of param)
    rw [hrename, ← Uses.of_map, hext.usesMap_rename hc] at h₁
    rw [bindParams_cons, bindParams_cons, Context.uses_eq, Context.uses_eq]
    generalize equateAll _ _ _ (Uses.of context param) _ = x at h₁ ⊢
    generalize equateAll _ _ _ (Uses.of (Uses.map _ context) param) _ = x' at h₁ ⊢
    cases h₁ with
    | error => exact .error
    | @ok K₂ f₂ _ _ st₂ st₂' hext₂ hlock₂ _ =>
      have hext₁₂ := hext.trans hext₂
      have hc₂ : Uses.All (Over K₂) context := fun e he t ht => hext₁₂.mono (hc e he t ht)
      -- the rest of the context is over old variables and is renamed as before
      have h₂ := ih hlock₂ (hc₂.erase param)
      rw [Uses.map_erase, hext₁₂.usesMap_rename hc] at h₂
      simp only
      generalize bindParams span params (Table.erase context param) st₂ = y at h₂ ⊢
      generalize bindParams span params (Table.erase (Uses.map _ context) param) st₂' = y' at h₂ ⊢
      cases h₂ with
      | error => exact .error
      | ok hext₃ hlock₃ hR =>
        obtain ⟨hts, hc₃, heq⟩ := hR
        have hvar₃ := hext₃.mono (hext₂.mono hvar)
        refine .ok (hext₁₂.trans hext₃) hlock₃ ⟨?_, hc₃, ?_⟩
        · exact List.forall_mem_cons.mpr ⟨hvar₃, hts⟩
        · rw [heq, List.map_cons, hext₃.rename (hext₂.mono hvar), hext₂.rename hvar, hrename]

/-- The typing of a function is found in lockstep. -/
theorem fnTyping_inStep (span : Span) (params : List String) (h : Lockstep K f st st')
    {body body' : Typing} (hbody : Renamed K f body body') :
    InStep K f Renamed (fnTyping span params body st) (fnTyping span params body' st') := by
  obtain ⟨hover, rfl⟩ := hbody
  obtain ⟨hty, hcontext, -⟩ := Typing.all_iff.mp hover
  have h₁ := bindParams_inStep span params h hcontext
  -- a function's type is made of its parameters and the body's type, and both are renamed alike
  rw [fnTyping_eq, fnTyping_eq, Typing.rename_context, Typing.rename_ty]
  generalize bindParams span params body.context st = x at h₁ ⊢
  generalize bindParams span params (Uses.map _ body.context) st' = x' at h₁ ⊢
  cases h₁ with
  | error => exact .error
  | ok hext hlock hR =>
    obtain ⟨hts, hc, rfl⟩ := hR
    refine .ok hext hlock ⟨Typing.all_iff.mpr ⟨?_, hc, List.forall_mem_nil _⟩, ?_⟩
    · exact over_arrow.mpr ⟨over_con.mpr hts, hext.mono hty⟩
    · rw [Typing.rename_mk, Ty.rename_arrow, Ty.rename_product, hext.rename hty,
        Table.mapValues_nil]

/-! ### Resolving names -/

/-- Uses over the variables in `K`, and their renaming. -/
def RenamedUses (K : Nat → Prop) (f : Nat → Nat) (c c' : Context) : Prop :=
  Uses.All (Over K) c ∧ c' = Uses.map (Ty.rename f) c

/-- The uses that a resolution collects, if it does not end with a problem. -/
def collected (x : Outcome Unit Context × State) : Except Problem Context × State :=
  (x.1.1.map fun _ => x.1.2, x.2)

theorem Extends.rename_defined (h : Extends K f K' f') {d : Defined}
    (hd : ∀ e ∈ d, e.2.All (Over K)) :
    Table.mapValues (Typing.rename f') d = Table.mapValues (Typing.rename f) d := by
  refine List.map_congr_left fun e he => ?_
  rw [Typing.rename_congr fun w hw => (h w (Typing.forall_mem_ids.mpr (hd e he) w hw)).2]

/-- A declared name takes instances of its declarations that are renamings of each other. -/
theorem instance_tandem {defined : Defined} {name : String} {declared : Typing} {uses : List Ty}
    (h : Lockstep K f st st') (hdef : ∀ e ∈ defined, e.2.All (Over K))
    (hget : Table.get? defined name = some declared) (huses : ∀ t ∈ uses, Over K t) (span : Span)
    (event : Event) :
    Tandem K f (fun K' f' _ _ => RenamedUses K' f' (instantiate declared st).1.context
        (instantiate (declared.rename f) st').1.context)
      (equateAll span (useOf name) (instantiate declared st).1.ty uses
        ((instantiate declared st).2.logged event))
      (equateAll span (useOf name) (instantiate (declared.rename f) st').1.ty
        (uses.map (Ty.rename f)) ((instantiate (declared.rename f) st').2.logged event)) := by
  have hover : declared.All (Over K) := hdef _ (Table.mem_of_get? hget)
  have hover' : (declared.rename f).All (Owns Anywhere st') :=
    Typing.all_mapTypes.mpr (hover.imp fun _ ht => h.owns_rename ht)
  -- a typing and its renaming are alike, so their instances are a pair in lockstep
  obtain ⟨K₁, f₁, hext, hlock, hcopy, heq⟩ := h.instantiate (hover.imp fun _ ht => h.owns ht) hover'
    (h.alike ⟨hover, rfl⟩)
  obtain ⟨hty, hcontext, -⟩ := Typing.all_iff.mp hcopy
  have h₁ := equateAll_tandem span (useOf name) (hlock.logged event event) hty
    fun t ht => hext.mono (huses t ht)
  rw [hext.map_rename huses] at h₁
  rw [heq, Typing.rename_ty, Typing.rename_context]
  generalize equateAll _ _ _ uses _ = x at h₁ ⊢
  generalize equateAll _ _ _ (uses.map _) _ = x' at h₁ ⊢
  cases h₁ with
  | error hext₂ hlock₂ => exact .error (hext.trans hext₂) hlock₂
  | ok hext₂ hlock₂ _ =>
    exact .ok (hext.trans hext₂) hlock₂ ⟨fun e he t ht => hext₂.mono (hcontext e he t ht),
      (hext₂.usesMap_rename hcontext).symm⟩

/-- **Names are resolved in lockstep**, also up to a problem. -/
theorem ResolutionRun.tandem {defined : Defined} {span : Span} {depth : Nat} {chain : List String}
    {context out : Context} {res : Outcome Unit Context × State}
    (hrun : ResolutionRun defined span depth chain context out st res) (h : Lockstep K f st st')
    (hdef : ∀ e ∈ defined, e.2.All (Over K)) (hc : Uses.All (Over K) context)
    (hout : Uses.All (Over K) out) :
    Tandem K f RenamedUses (collected res)
      (collected (resolveNames (Table.mapValues (Typing.rename f) defined) span depth chain
        (Uses.map (Ty.rename f) context) (Uses.map (Ty.rename f) out) st')) := by
  -- a name is declared on both sides or on neither, and the chain of names is the same
  have hnone : ∀ (f : Nat → Nat) {name : String}, Table.get? defined name = none →
      Table.get? (Table.mapValues (Typing.rename f) defined) name = none := fun f name hget => by
    rw [Table.get?_mapValues, hget, Option.map_none]
  have hsome : ∀ (f : Nat → Nat) {name : String} {declared : Typing},
      Table.get? defined name = some declared →
      Table.get? (Table.mapValues (Typing.rename f) defined) name = some (declared.rename f) :=
    fun f name declared hget => by
      rw [Table.get?_mapValues, hget, Option.map_some]
  -- by the ways that the first run can go, with the renaming free, since it grows on the way
  induction hrun generalizing K f st' with
  | nil =>
    rw [Uses.map_nil, resolveNames_nil]
    exact .ok (.refl K f) h ⟨hout, rfl⟩
  | @undeclared _ _ name uses _ _ _ _ hget _ ih =>
    rw [Uses.all_cons] at hc
    have h₁ := ih h hdef hc.2 (hout.passOut hc.1 name)
    rw [Uses.map_passOut] at h₁
    rw [Uses.map_cons, resolveNames_undeclared (hnone f hget)]
    exact h₁
  | recursive hget hrec =>
    rw [Uses.map_cons, resolveNames_recursive (hsome f hget) hrec]
    exact .error (.refl K f) h
  | @clash _ _ name uses _ _ _ declared _ _ hget hchain heq =>
    rw [Uses.all_cons] at hc
    have h₁ := instance_tandem h hdef hget hc.1 span (.resolved name uses.length)
    rw [Uses.map_cons, resolveNames_declared (hsome f hget) hchain, List.length_map]
    rw [heq] at h₁
    -- the second run clashes at the same name
    generalize equateAll _ _ (instantiate (declared.rename f) st').1.ty _ _ = x' at h₁ ⊢
    cases h₁ with
    | error hext hlock => exact .error hext hlock
  | @fail _ _ name uses _ _ _ declared _ _ _ _ hget hchain heq _ ih =>
    rw [Uses.all_cons] at hc
    have h₁ := instance_tandem h hdef hget hc.1 span (.resolved name uses.length)
    rw [Uses.map_cons, resolveNames_declared (hsome f hget) hchain, List.length_map]
    rw [heq] at h₁
    generalize equateAll _ _ (instantiate (declared.rename f) st').1.ty _ _ = x' at h₁ ⊢
    cases h₁ with
    | @ok _ _ _ _ _ st₁' hext hlock hcopy =>
      have h₂ := ih hlock (fun e he => (hdef e he).imp fun _ ht => hext.mono ht) hcopy.1
        (fun e he t ht => hext.mono (hout e he t ht))
      -- declarations and names passed out are older than the instance
      rw [hext.rename_defined hdef, hext.usesMap_rename hout, ← hcopy.2] at h₂
      simp only
      generalize resolveNames _ span _ _ _ _ st₁' = y' at h₂ ⊢
      -- the second run fails where the first one does
      obtain ⟨⟨_ | _, _⟩, _⟩ := y'
      · exact h₂.extend hext
      · cases h₂
  | @declared _ _ name uses _ _ _ declared _ _ _ _ hget hchain heq _ _ ih ihrest =>
    rw [Uses.all_cons] at hc
    have h₁ := instance_tandem h hdef hget hc.1 span (.resolved name uses.length)
    rw [Uses.map_cons, resolveNames_declared (hsome f hget) hchain, List.length_map]
    rw [heq] at h₁
    generalize equateAll _ _ (instantiate (declared.rename f) st').1.ty _ _ = x' at h₁ ⊢
    cases h₁ with
    | @ok _ _ _ _ _ st₁' hext hlock hcopy =>
      have h₂ := ih hlock (fun e he => (hdef e he).imp fun _ ht => hext.mono ht) hcopy.1
        (fun e he t ht => hext.mono (hout e he t ht))
      rw [hext.rename_defined hdef, hext.usesMap_rename hout, ← hcopy.2] at h₂
      simp only
      generalize resolveNames _ span _ _ _ _ st₁' = y' at h₂ ⊢
      obtain ⟨⟨_ | _, out₁'⟩, st₂'⟩ := y'
      · cases h₂
      · simp only [collected, Except.map] at h₂
        cases h₂ with
        | ok hext₂ hlock₂ hout₂ =>
          obtain ⟨hout₂, rfl⟩ := hout₂
          -- the names that follow are resolved under a renaming that has grown twice
          have hext' := hext.trans hext₂
          have h₃ := ihrest hlock₂ (fun e he => (hdef e he).imp fun _ ht => hext'.mono ht)
            (fun e he t ht => hext'.mono (hc.2 e he t ht)) hout₂
          rw [hext'.rename_defined hdef, hext'.usesMap_rename hc.2] at h₃
          exact h₃.extend hext'

theorem ResolutionRun.inStep {defined : Defined} {span : Span} {depth : Nat} {chain : List String}
    {context out : Context} {res : Outcome Unit Context × State}
    (hrun : ResolutionRun defined span depth chain context out st res) (h : Lockstep K f st st')
    (hdef : ∀ e ∈ defined, e.2.All (Over K)) (hc : Uses.All (Over K) context)
    (hout : Uses.All (Over K) out) :
    InStep K f RenamedUses (collected res)
      (collected (resolveNames (Table.mapValues (Typing.rename f) defined) span depth chain
        (Uses.map (Ty.rename f) context) (Uses.map (Ty.rename f) out) st')) :=
  (hrun.tandem h hdef hc hout).inStep

theorem absorb_collected (sofar : Typing) (span : Span) (stmt : Typing) (st : State) :
    absorb sofar span stmt st =
      match collected (resolveNames
        (Table.insertAll sofar.defined (instantiate stmt st).1.defined) span
        (Table.insertAll sofar.defined (instantiate stmt st).1.defined).length []
        (instantiate stmt st).1.context sofar.context (instantiate stmt st).2) with
      | (.error problem, st) => (.error problem, st)
      | (.ok context, st₁) =>
        (.ok ⟨(instantiate stmt st).1.ty, context,
          Table.insertAll sofar.defined (instantiate stmt st).1.defined⟩, st₁) := by
  rw [absorb_eq, resolve_eq, collected]
  rcases resolveNames _ _ _ _ _ _ _ with ⟨⟨_ | _, out⟩, st₁⟩ <;> rfl

/-- Statements are taken in in lockstep. -/
theorem absorb_inStep (h : Lockstep K f st st') {sofar sofar' stmt stmt' : Typing}
    (hsofar : Renamed K f sofar sofar') (hstmt : stmt.All (Owns Anywhere st))
    (hstmt' : stmt'.All (Owns Anywhere st'))
    (halike : Alike (stmt.apply st.subst) (stmt'.apply st'.subst)) (span : Span) :
    InStep K f Renamed (absorb sofar span stmt st) (absorb sofar' span stmt' st') := by
  obtain ⟨K₁, f₁, hext, hlock, hcopy, heq⟩ := h.instantiate hstmt hstmt' halike
  obtain ⟨hover, rfl⟩ := hsofar.extend hext
  obtain ⟨hty, hcontext, hdefined⟩ := Typing.all_iff.mp hcopy
  obtain ⟨-, hout, hold⟩ := Typing.all_iff.mp hover
  -- all declared names are over variables in lockstep, old ones and those of the instance
  have hdef : ∀ e ∈ Table.insertAll sofar.defined (instantiate stmt st).1.defined,
      e.2.All (Over K₁) := fun e he => (Table.mem_insertAll he).elim (hold e) (hdefined e)
  have h₁ := (resolutionRun _ span (Table.insertAll sofar.defined
    (instantiate stmt st).1.defined).length [] _ _ _).inStep hlock hdef hcontext hout
  rw [absorb_collected, absorb_collected, heq, Typing.rename_defined, Typing.rename_defined,
    ← Table.mapValues_insertAll, Table.mapValues, List.length_map, ← Table.mapValues,
    Typing.rename_context, Typing.rename_context, Typing.rename_ty]
  generalize collected (resolveNames (Table.insertAll _ _) _ _ _ _ _ _) = x at h₁ ⊢
  generalize collected (resolveNames (Table.mapValues _ _) _ _ _ _ _ _) = x' at h₁ ⊢
  cases h₁ with
  | error => exact .error
  | ok hext₂ hlock₂ hR =>
    obtain ⟨hc, rfl⟩ := hR
    refine .ok (hext.trans hext₂) hlock₂ ⟨Typing.all_iff.mpr ⟨hext₂.mono hty, hc, fun e he =>
      (hdef e he).imp fun _ ht => hext₂.mono ht⟩, ?_⟩
    rw [Typing.rename_mk, hext₂.rename hty, hext₂.rename_defined hdef]

/-! ### Applications -/

/-- A variable that is not allocated yet does not occur in a resolved typing. -/
theorem Region.unrelated_fresh (h : Region K st) {T : Typing} (hT : T.All (Owns Anywhere st))
    {n : Nat} (hn : st.count ≤ n) (tag : Option String) :
    Unrelated (.closed (.var ⟨n, tag⟩)) (T.apply st.subst) := by
  intro w hw hmem
  have hlt : ∀ w ∈ (T.apply st.subst).ids, w < st.count :=
    Typing.forall_mem_ids.mpr (Typing.all_mapTypes.mpr
      (hT.imp fun t ht w hw => (h.all.owns_apply ht w hw).2))
  obtain rfl : w = n := by simpa using hw
  exact absurd (hlt w hmem) (Nat.not_lt.mpr hn)

/-- The mark of a failed application, from resolved typings of the function and the argument and a
variable for the result. -/
def failureTyping (fn arg result : Typing) : Typing :=
  .closed (.failure fn.ty (.arrow arg.ty result.ty))

theorem failureTyping_alike {F A O F' A' O' : Typing} (h : AlikeAll [O, F, A] [O', F', A']) :
    Alike (failureTyping F A O) (failureTyping F' A' O') := by
  have hmem : ∀ (T : Typing), ∀ w ∈ T.ty.ids, w ∈ T.ids := fun T =>
    (Typing.all_iff.mp T.all_mem_ids).1
  refine h.alike (Typing.forall_mem_ids.mpr (Typing.all_closed.mpr ?_)) fun f heq => ?_
  · exact over_failure.mpr ⟨fun w hw => ⟨F, by simp, hmem F w hw⟩, over_arrow.mpr
      ⟨fun w hw => ⟨A, by simp, hmem A w hw⟩, fun w hw => ⟨O, by simp, hmem O w hw⟩⟩⟩
  · obtain ⟨rfl, rfl, rfl⟩ : O' = O.rename f ∧ F' = F.rename f ∧ A' = A.rename f := by
      simpa using heq
    simp only [failureTyping, Typing.closed, Typing.rename_mk, Typing.rename_ty, Ty.rename_failure,
      Ty.rename_arrow, Uses.map_nil, Table.mapValues_nil]

/-- A mark of failure is resolved part by part. -/
theorem Region.apply_failure (h : Region K st) (fn arg : Typing) {n : Nat} (hn : st.count ≤ n) :
    (Typing.closed (.failure fn.ty (.arrow arg.ty (.var ⟨n, none⟩)))).apply st.subst =
      failureTyping (fn.apply st.subst) (arg.apply st.subst) (.closed (.var ⟨n, none⟩)) := by
  have hvar : st.subst.apply (.var ⟨n, none⟩) = .var ⟨n, none⟩ :=
    Subst.apply_var_of_unbound (h.unbound hn)
  rw [failureTyping, Typing.apply, Typing.mapTypes_closed, Typing.apply, Typing.mapTypes_ty,
    Typing.apply, Typing.mapTypes_ty, Ty.failure, Ty.arrow, Subst.apply_con]
  simp only [List.map_cons, List.map_nil, Subst.apply_con, hvar]
  rfl

/-- **An application does the same in lockstep**, also when it fails. -/
theorem applyTypings_alike (h : Lockstep K f st st')
    {fn fn' arg arg' fnRaw fnRaw' argRaw argRaw' : Typing} (hfn : Renamed K f fn fn')
    (harg : Renamed K f arg arg')
    (hraw : AlikeAll [fnRaw.apply st.subst, argRaw.apply st.subst]
      [fnRaw'.apply st'.subst, argRaw'.apply st'.subst])
    (hfr : fnRaw.All (Owns Anywhere st)) (hfr' : fnRaw'.All (Owns Anywhere st'))
    (har : argRaw.All (Owns Anywhere st)) (har' : argRaw'.All (Owns Anywhere st')) (span : Span) :
    Alike ((applyTypings span fnRaw fn argRaw arg st).1.apply
        (applyTypings span fnRaw fn argRaw arg st).2.subst)
      ((applyTypings span fnRaw' fn' argRaw' arg' st').1.apply
        (applyTypings span fnRaw' fn' argRaw' arg' st').2.subst) := by
  -- the result is a new variable on both sides
  obtain ⟨K₁, f₁, hext, hlock, hvar, hrename⟩ := h.next none
  obtain ⟨hover, rfl⟩ := hfn.extend hext
  obtain ⟨hover', rfl⟩ := harg.extend hext
  obtain ⟨hty, hc, -⟩ := Typing.all_iff.mp hover
  obtain ⟨hty', hc', -⟩ := Typing.all_iff.mp hover'
  obtain ⟨hres, hlock₁⟩ := hlock.unified hty (over_arrow.mpr ⟨hty', hvar⟩)
  rw [Ty.rename_arrow, hrename] at hres hlock₁
  rw [applyTypings_eq, applyTypings_eq, Typing.rename_ty, Typing.rename_ty]
  change (unify st'.subst _ _).1 = (unify st.subst _ _).1 at hres
  rw [hres]
  -- unification has the same outcome on both sides
  cases hu : (unify st.subst fn.ty (.arrow arg.ty (.var ⟨st.count, none⟩))).1 with
  | ok _ =>
    refine hlock₁.alike ⟨Typing.all_iff.mpr ⟨hvar, ?_, List.forall_mem_nil _⟩, ?_⟩
    · exact .union hc hc'
    · rw [Typing.rename_mk, hrename, Context.union_eq, Context.union_eq, Uses.map_union,
        Typing.rename_context, Typing.rename_context, Table.mapValues_nil]
  | error cause =>
    -- a failed unification leaves the bindings as they were, so raw typings are resolved as before
    have hsubst : (st.next.unified fn.ty
        (.arrow arg.ty (.var ⟨st.count, none⟩))).subst = st.subst := unify_error hu
    have hsubst' : (st'.next.unified (fn.ty.rename f₁)
        (.arrow (arg.ty.rename f₁) (.var ⟨st'.count, none⟩))).subst = st'.subst :=
      unify_error (hres.trans hu)
    change Alike (Typing.apply (st.next.unified _ _).subst _)
      (Typing.apply (st'.next.unified _ _).subst _)
    rw [hsubst, hsubst', h.left.apply_failure fnRaw argRaw (Nat.le_succ _),
      h.right.apply_failure fnRaw' argRaw' (Nat.le_succ _)]
    -- the mark is made of function, argument and a fresh variable that is in neither of them
    refine failureTyping_alike (.cons (alike_var _ _ none) hraw ?_ ?_)
    · simpa using ⟨h.left.unrelated_fresh hfr (Nat.le_succ _) none,
        h.left.unrelated_fresh har (Nat.le_succ _) none⟩
    · simpa using ⟨h.right.unrelated_fresh hfr' (Nat.le_succ _) none,
        h.right.unrelated_fresh har' (Nat.le_succ _) none⟩

end LetTyping
