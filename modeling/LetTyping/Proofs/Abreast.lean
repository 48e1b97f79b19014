import LetTyping.Proofs.Hygiene
import LetTyping.Proofs.Signature

/-!
# Rules that run abreast

What the rules do depends neither on positions nor on the events reported before, and resolving
names does not depend on the uses of names that are declared nowhere.  So two runs of a rule go
abreast: in states that differ in their events, at other positions, and with other names for some
uses, they allocate the same variables and bind them to the same types.

Some names are hidden from the declarations at hand.  Uses of hidden names pass out, whatever they
are called, and resolving the other names goes on as if they were not there.  Only the types they
are used at have to stay in the typings, because instances are made of all types together.

## Main definitions

* `State.Matches` — two states differ at most in the events reported.
* `Abreast` — two results, in states that match.
* `outside` — the uses of names that are not hidden.
* `Collapses` — a function that gives other names to hidden names only, which are hidden too.
* `SameOutside` — two stacks of scopes that differ in the names for hidden uses.

## Main results

* `fnTyping_abreast`, `applyTypings_abreast`, `absorb_abreast` — the rules run abreast.
* `ResolutionRun.abreast` — **names are resolved abreast, whatever hidden uses are called.**
* `signature_abreast` — declarations are reported abreast.
-/

namespace LetTyping

variable {st st' : State} {ρ : String → String}

/-! ### States -/

/-- Two states differ at most in the events reported. -/
structure State.Matches (st st' : State) : Prop where
  count : st'.count = st.count
  subst : st'.subst = st.subst

namespace State.Matches

theorem refl (st : State) : st.Matches st := ⟨rfl, rfl⟩

theorem logged (h : st.Matches st') (event event' : Event) :
    (st.logged event).Matches (st'.logged event') := ⟨h.count, h.subst⟩

theorem next (h : st.Matches st') : st.next.Matches st'.next :=
  ⟨congrArg (· + 1) h.count, h.subst⟩

theorem unified (h : st.Matches st') (a b : Ty) : (st.unified a b).Matches (st'.unified a b) :=
  ⟨h.count, by rw [State.unified, State.unified, h.subst]⟩

/-- The instances of a typing are the same, with the same other names for uses. -/
theorem instantiate (h : st.Matches st') (T : Typing) :
    (LetTyping.instantiate (T.renameUses ρ) st').1 = (LetTyping.instantiate T st).1.renameUses ρ ∧
      (LetTyping.instantiate T st).2.Matches (LetTyping.instantiate (T.renameUses ρ) st').2 := by
  obtain ⟨count, subst, log⟩ := st
  obtain ⟨count', subst', log'⟩ := st'
  obtain ⟨hcount, hsubst⟩ := h
  cases hcount
  cases hsubst
  have hcopy := congrFun (instantiate_renameUses (σ := ρ) T) ⟨count, subst, log'⟩
  exact ⟨congrArg Prod.fst hcopy, congrArg (·.2.count) hcopy, congrArg (·.2.subst) hcopy⟩

end State.Matches

/-- Two results in states that match. -/
inductive Abreast {α β : Type} (R : α → β → Prop) :
    Except Problem α × State → Except Problem β × State → Prop
  | ok {a b st st'} : R a b → st.Matches st' → Abreast R (.ok a, st) (.ok b, st')
  | error {e e' st st'} : st.Matches st' → Abreast R (.error e, st) (.error e', st')

/-! ### Functions and applications -/

theorem equateAll_abreast (span span' : Span) (d d' : String) (a : Ty) (bs : List Ty)
    (h : st.Matches st') :
    Abreast (fun _ _ => True) (equateAll span d a bs st) (equateAll span' d' a bs st') := by
  induction bs generalizing st st' with
  | nil => exact .ok trivial h
  | cons b bs ih =>
    rw [equateAll_cons, equateAll_cons, equate_eq, equate_eq, h.subst]
    rcases (unify st.subst a b).1 with cause | _
    · exact .error (h.unified a b)
    · exact ih (h.unified a b)

theorem bindParams_abreast (span span' : Span) (params : List String) (context : Context)
    (h : st.Matches st') :
    Abreast Eq (bindParams span params context st) (bindParams span' params context st') := by
  induction params generalizing context st st' with
  | nil => exact .ok rfl h
  | cons param params ih =>
    -- the counts agree, so both runs take the same variable for the parameter
    have hequate := equateAll_abreast span span' (parameterOf param) (parameterOf param)
      (.var ⟨st.count, none⟩) (context.uses param) h.next
    rw [bindParams_cons, bindParams_cons, h.count]
    generalize equateAll span _ _ _ _ = x at hequate ⊢
    generalize equateAll span' _ _ _ _ = x' at hequate ⊢
    cases hequate with
    | error hst => exact .error hst
    | @ok _ _ st₁ st₁' _ hst =>
      have hrest := ih (Table.erase context param) hst
      simp only
      generalize bindParams span params _ st₁ = y at hrest ⊢
      generalize bindParams span' params _ st₁' = y' at hrest ⊢
      cases hrest with
      | error hst => exact .error hst
      | ok heq hst =>
        cases heq
        exact .ok rfl hst

/-- The typing of a function with other names for its parameters. -/
theorem fnTyping_abreast (hρ : ρ.Injective) (span span' : Span) (params : List String)
    (body : Typing) (h : st.Matches st') :
    Abreast (fun T T' => T' = T.renameUses ρ) (fnTyping span params body st)
      (fnTyping span' (params.map ρ) (body.renameUses ρ) st') := by
  have hbind := bindParams_abreast span span' params body.context h
  -- parameters and uses are renamed together, so names are changed after the run on the same names
  have hnames := fnTyping_renameUses (E := fun _ _ => True) hρ span' params
    (fun _ _ _ => trivial) body st'
  rw [Infer.map_apply, fnTyping_eq] at hnames
  rw [fnTyping_eq]
  generalize bindParams span params body.context st = x at hbind ⊢
  generalize bindParams span' params body.context st' = x' at hbind hnames
  generalize fnTyping span' (params.map ρ) _ st' = y at hnames ⊢
  cases hbind with
  | error hst =>
    cases hnames
    exact .error hst
  | ok heq hst =>
    cases heq
    cases hnames
    exact .ok rfl hst

theorem applyTypings_abreast (hρ : ρ.Injective) (span span' : Span) (fnRaw fn argRaw arg : Typing)
    (h : st.Matches st') :
    (applyTypings span' (fnRaw.renameUses ρ) (fn.renameUses ρ) (argRaw.renameUses ρ)
        (arg.renameUses ρ) st').1 = (applyTypings span fnRaw fn argRaw arg st).1.renameUses ρ ∧
      (applyTypings span fnRaw fn argRaw arg st).2.Matches
        (applyTypings span' (fnRaw.renameUses ρ) (fn.renameUses ρ) (argRaw.renameUses ρ)
          (arg.renameUses ρ) st').2 := by
  rw [applyTypings_renameUses hρ]
  change ((applyTypings span' fnRaw fn argRaw arg st').1.renameUses ρ) = _ ∧
    State.Matches _ (applyTypings span' fnRaw fn argRaw arg st').2
  rw [applyTypings_eq, applyTypings_eq, h.count, h.subst]
  split
  · exact ⟨rfl, h.next.unified _ _⟩
  · exact ⟨rfl, ((h.next.unified _ _).logged _ _).next⟩

/-! ### Hidden names -/

/-- The uses of names that are not hidden. -/
def outside (hidden : List String) (c : Context) : Context := c.filter fun e => e.1 ∉ hidden

/-- The function gives other names to hidden names only, and these are hidden as well. -/
structure Collapses (hidden : List String) (κ : String → String) : Prop where
  fixes : ∀ x, x ∉ hidden → κ x = x
  keeps : ∀ x, x ∈ hidden → κ x ∈ hidden

section Hidden

variable {hidden : List String} {κ : String → String} {c : Context} {name : String} {uses : List Ty}

theorem outside_cons_of_mem (h : name ∈ hidden) :
    outside hidden ((name, uses) :: c) = outside hidden c := by
  simp [outside, h]

theorem outside_cons_of_not_mem (h : name ∉ hidden) :
    outside hidden ((name, uses) :: c) = (name, uses) :: outside hidden c := by
  simp [outside, h]

@[simp] theorem outside_nothing (c : Context) : outside [] c = c := by simp [outside]

theorem outside_mapKeys (hκ : Collapses hidden κ) (c : Context) :
    outside hidden (Table.mapKeys κ c) = outside hidden c := by
  induction c with
  | nil => rfl
  | cons e c ih =>
    obtain ⟨name, uses⟩ := e
    rw [Table.mapKeys_cons]
    by_cases h : name ∈ hidden
    · rw [outside_cons_of_mem h, outside_cons_of_mem (hκ.keeps name h), ih]
    · rw [hκ.fixes name h, outside_cons_of_not_mem h, outside_cons_of_not_mem h, ih]

theorem outside_addAll_of_mem (h : name ∈ hidden) (ts : List Ty) :
    outside hidden (Uses.addAll c name ts) = outside hidden c := by
  induction c with
  | nil => simp [outside, Uses.addAll, Table.alter, h]
  | cons e c ih =>
    obtain ⟨n, uses⟩ := e
    rw [Uses.addAll] at ih ⊢
    rw [Table.alter]
    split
    · next heq => rw [heq, outside_cons_of_mem h, outside_cons_of_mem h]
    · by_cases hn : n ∈ hidden
      · rw [outside_cons_of_mem hn, outside_cons_of_mem hn, ih]
      · rw [outside_cons_of_not_mem hn, outside_cons_of_not_mem hn, ih]

theorem outside_addAll_of_not_mem (h : name ∉ hidden) (ts : List Ty) :
    outside hidden (Uses.addAll c name ts) = Uses.addAll (outside hidden c) name ts := by
  induction c with
  | nil => simp [outside, Uses.addAll, Table.alter, h]
  | cons e c ih =>
    obtain ⟨n, uses⟩ := e
    rw [Uses.addAll] at ih ⊢
    rw [Table.alter]
    split
    -- the uses stand in the first entry, which is not hidden
    · next heq =>
      rw [heq, outside_cons_of_not_mem h, outside_cons_of_not_mem h, Uses.addAll, Table.alter,
        if_pos rfl]
    · next hne =>
      -- an entry in front of the uses may be hidden or not; in both cases the uses are found behind
      -- it
      by_cases hn : n ∈ hidden
      · rw [outside_cons_of_mem hn, outside_cons_of_mem hn, ih]
      · rw [outside_cons_of_not_mem hn, outside_cons_of_not_mem hn, ih]
        simp only [Uses.addAll, Table.alter, if_neg hne]

theorem outside_passOut_of_mem (h : name ∈ hidden) (ts : List Ty) :
    outside hidden (Uses.passOut c name ts) = outside hidden c := by
  induction ts generalizing c with
  | nil => rfl
  | cons t ts ih => exact (ih (c := Uses.addAll c name [t])).trans (outside_addAll_of_mem h [t])

theorem outside_passOut_of_not_mem (h : name ∉ hidden) (ts : List Ty) :
    outside hidden (Uses.passOut c name ts) = Uses.passOut (outside hidden c) name ts := by
  induction ts generalizing c with
  | nil => rfl
  | cons t ts ih =>
    refine (ih (c := Uses.addAll c name [t])).trans ?_
    rw [outside_addAll_of_not_mem h]
    rfl

/-! ### Typings with other names for hidden uses -/

theorem Typing.ty_eq_of_renameUses {T T' : Typing} (h : T'.renameUses κ = T.renameUses κ) :
    T'.ty = T.ty := by
  rw [← T'.renameUses_ty, h, T.renameUses_ty]

theorem Typing.outside_eq_of_renameUses (hκ : Collapses hidden κ) {T T' : Typing}
    (h : T'.renameUses κ = T.renameUses κ) :
    outside hidden T'.context = outside hidden T.context := by
  rw [← outside_mapKeys hκ T'.context, ← Typing.renameUses_context, h, Typing.renameUses_context,
    outside_mapKeys hκ]

/-- Typings that differ in the names for hidden uses have instances that do. -/
theorem State.Matches.instantiate_collapsed (h : st.Matches st') {T T' : Typing}
    (hT : T'.renameUses κ = T.renameUses κ) :
    (LetTyping.instantiate T' st').1.renameUses κ = (LetTyping.instantiate T st).1.renameUses κ ∧
      (LetTyping.instantiate T st).2.Matches (LetTyping.instantiate T' st').2 := by
  obtain ⟨hcopy, hst⟩ := h.instantiate (ρ := κ) T
  obtain ⟨hcopy', hst'⟩ := (State.Matches.refl st').instantiate (ρ := κ) T'
  rw [hT] at hcopy' hst'
  exact ⟨hcopy'.symm.trans hcopy,
    ⟨hst'.count.symm.trans hst.count, hst'.subst.symm.trans hst.subst⟩⟩

/-! ### Resolving names -/

/-- Two resolutions in states that match, with the same uses of names that are not hidden. -/
inductive ResolvedAbreast (hidden : List String) :
    Outcome Unit Context × State → Outcome Unit Context × State → Prop
  | ok {out out' st st'} : outside hidden out' = outside hidden out → st.Matches st' →
      ResolvedAbreast hidden ((.ok (), out), st) ((.ok (), out'), st')
  | error {e e' out out' st st'} : st.Matches st' →
      ResolvedAbreast hidden ((.error e, out), st) ((.error e', out'), st')

variable {defined defined' : Defined} {span : Span} {depth : Nat} {chain : List String}
  {context context' out out' : Context}

/-- Uses of hidden names pass out before the other names are resolved. -/
theorem resolveNames_skip (hdef : ∀ x ∈ Table.keys defined, x ∉ hidden) (span : Span) (depth : Nat)
    (chain : List String) (skipped context out : Context) (st : State)
    (hskipped : ∀ e ∈ skipped, e.1 ∈ hidden) :
    ∃ out₁, outside hidden out₁ = outside hidden out ∧
      resolveNames defined span depth chain (skipped ++ context) out st =
        resolveNames defined span depth chain context out₁ st := by
  induction skipped generalizing out with
  | nil => exact ⟨out, rfl, rfl⟩
  | cons e skipped ih =>
    obtain ⟨name, uses⟩ := e
    rw [List.forall_mem_cons] at hskipped
    have hnone : Table.get? defined name = none := by
      cases hget : Table.get? defined name with
      | none => rfl
      | some T => exact absurd hskipped.1 (hdef name (Table.mem_keys_of_get? hget))
    obtain ⟨out₁, hout, heq⟩ := ih (Uses.passOut out name uses) hskipped.2
    refine ⟨out₁, hout.trans (outside_passOut_of_mem hskipped.1 uses), ?_⟩
    rw [List.cons_append, resolveNames_undeclared hnone, heq]

/-- A context with no uses outside is resolved at once. -/
theorem resolveNames_of_outside_nil (hdef : ∀ x ∈ Table.keys defined, x ∉ hidden)
    (hc : outside hidden context = []) (span : Span) (depth : Nat) (chain : List String)
    (out : Context) (st : State) :
    ∃ out₁, outside hidden out₁ = outside hidden out ∧
      resolveNames defined span depth chain context out st = ((.ok (), out₁), st) := by
  obtain ⟨out₁, hout, heq⟩ := resolveNames_skip hdef span depth chain context [] out st
    (by simpa [outside] using hc)
  rw [List.append_nil, resolveNames_nil] at heq
  exact ⟨out₁, hout, heq⟩

/-- The first use outside is the first to be resolved. -/
theorem resolveNames_of_outside_cons (hdef : ∀ x ∈ Table.keys defined, x ∉ hidden) {rest : Context}
    (hname : name ∉ hidden) (hc : outside hidden context = outside hidden ((name, uses) :: rest))
    (span : Span) (depth : Nat) (chain : List String) (out : Context) (st : State) :
    ∃ context₁ out₁, outside hidden context₁ = outside hidden rest ∧
      outside hidden out₁ = outside hidden out ∧
      resolveNames defined span depth chain context out st =
        resolveNames defined span depth chain ((name, uses) :: context₁) out₁ st := by
  rw [outside_cons_of_not_mem hname] at hc
  obtain ⟨skipped, context₁, rfl, hskipped, -, hrest⟩ := List.filter_eq_cons_iff.mp hc
  obtain ⟨out₁, hout, heq⟩ := resolveNames_skip hdef span depth chain skipped
    ((name, uses) :: context₁) out st (by simpa using hskipped)
  exact ⟨context₁, out₁, hrest, hout, heq⟩

/-- The uses of a declared name meet the types of instances that are the same. -/
theorem instance_abreast (h : st.Matches st') {T T' : Typing}
    (hT : T'.renameUses κ = T.renameUses κ) (span span' : Span) (name : String) (uses : List Ty) :
    Abreast (fun _ _ => True)
      (equateAll span (useOf name) (instantiate T st).1.ty uses
        ((instantiate T st).2.logged (.resolved name uses.length)))
      (equateAll span' (useOf name) (instantiate T' st').1.ty uses
        ((instantiate T' st').2.logged (.resolved name uses.length))) := by
  obtain ⟨hcopy, hst⟩ := h.instantiate_collapsed hT
  rw [Typing.ty_eq_of_renameUses hcopy]
  exact equateAll_abreast span span' _ _ _ uses (hst.logged _ _)

/-- **Names are resolved abreast, whatever hidden uses are called.** -/
theorem ResolutionRun.abreast (hκ : Collapses hidden κ)
    (heq : Table.mapValues (Typing.renameUses κ) defined' =
      Table.mapValues (Typing.renameUses κ) defined)
    (hdef : ∀ x ∈ Table.keys defined, x ∉ hidden) (span' : Span)
    {res : Outcome Unit Context × State}
    (hrun : ResolutionRun defined span depth chain context out st res)
    (hcontext : outside hidden context' = outside hidden context)
    (hout : outside hidden out' = outside hidden out) (hst : st.Matches st') :
    ResolvedAbreast hidden res (resolveNames defined' span' depth chain context' out' st') := by
  have hdef' : ∀ x ∈ Table.keys defined', x ∉ hidden := by
    rwa [← Table.keys_mapValues (Typing.renameUses κ) defined', heq, Table.keys_mapValues]
  have hnone : ∀ {name}, Table.get? defined name = none → Table.get? defined' name = none := by
    intro name hget
    have h := congrArg (Table.get? · name) heq
    simpa [Table.get?_mapValues, hget] using h
  have hsome : ∀ {name T}, Table.get? defined name = some T → name ∉ hidden ∧
      ∃ T', Table.get? defined' name = some T' ∧ T'.renameUses κ = T.renameUses κ := by
    intro name T hget
    have h := congrArg (Table.get? · name) heq
    exact ⟨hdef name (Table.mem_keys_of_get? hget), by simpa [Table.get?_mapValues, hget] using h⟩
  -- the second run takes the first one's steps; where hidden uses stand does not matter, so each
  -- step skips those that come before the name at hand
  induction hrun generalizing context' out' st' with
  | nil =>
    obtain ⟨out₁, hout₁, hres⟩ := resolveNames_of_outside_nil hdef' hcontext span' _ _ out' st'
    rw [hres]
    exact .ok (hout₁.trans hout) hst
  | @undeclared _ _ name uses _ _ _ _ hget _ ih =>
    by_cases hname : name ∈ hidden
    · -- a hidden use of the first run need not be one of the second, which waits
      rw [outside_cons_of_mem hname] at hcontext
      exact ih hcontext (hout.trans (outside_passOut_of_mem hname uses).symm) hst
    · obtain ⟨context₁, out₁, hcontext₁, hout₁, hres⟩ :=
        resolveNames_of_outside_cons hdef' hname hcontext span' _ _ out' st'
      rw [hres, resolveNames_undeclared (hnone hget)]
      refine ih hcontext₁ ?_ hst
      rw [outside_passOut_of_not_mem hname, outside_passOut_of_not_mem hname, hout₁, hout]
  | @recursive _ _ name _ _ _ _ _ hget hrec =>
    obtain ⟨hname, T', hget', -⟩ := hsome hget
    obtain ⟨context₁, out₁, -, -, hres⟩ :=
      resolveNames_of_outside_cons hdef' hname hcontext span' _ _ out' st'
    rw [hres, resolveNames_recursive hget' hrec]
    exact .error hst
  | @clash _ _ name uses _ _ _ T problem st₁ hget hchain hequate =>
    obtain ⟨hname, T', hget', hT⟩ := hsome hget
    obtain ⟨context₁, out₁, -, -, hres⟩ :=
      resolveNames_of_outside_cons hdef' hname hcontext span' _ _ out' st'
    have h₁ := instance_abreast hst hT span span' name uses
    rw [hequate] at h₁
    rw [hres, resolveNames_declared hget' hchain]
    generalize equateAll span' _ _ _ _ = x at h₁ ⊢
    cases h₁ with
    | error hst₂ => exact .error hst₂
  | @fail _ _ name uses _ _ _ T _ _ _ _ hget hchain hequate _ ih =>
    obtain ⟨hname, T', hget', hT⟩ := hsome hget
    obtain ⟨context₁, out₁, -, hout₁, hres⟩ :=
      resolveNames_of_outside_cons hdef' hname hcontext span' _ _ out' st'
    have h₁ := instance_abreast hst hT span span' name uses
    rw [hequate] at h₁
    rw [hres, resolveNames_declared hget' hchain]
    generalize equateAll span' _ _ _ _ = x at h₁ ⊢
    cases h₁ with
    | ok _ hst₂ =>
      have h₂ := ih (Typing.outside_eq_of_renameUses hκ (hst.instantiate_collapsed hT).1)
        (hout₁.trans hout) hst₂
      simp only
      generalize resolveNames defined' span' _ _ _ _ _ = y at h₂ ⊢
      cases h₂ with
      | error hst₃ => exact .error hst₃
  | @declared _ _ name uses _ _ _ T _ _ _ _ hget hchain hequate _ _ ih ihrest =>
    obtain ⟨hname, T', hget', hT⟩ := hsome hget
    obtain ⟨context₁, out₁, hcontext₁, hout₁, hres⟩ :=
      resolveNames_of_outside_cons hdef' hname hcontext span' _ _ out' st'
    have h₁ := instance_abreast hst hT span span' name uses
    rw [hequate] at h₁
    rw [hres, resolveNames_declared hget' hchain]
    generalize equateAll span' _ _ _ _ = x at h₁ ⊢
    cases h₁ with
    | ok _ hst₂ =>
      have h₂ := ih (Typing.outside_eq_of_renameUses hκ (hst.instantiate_collapsed hT).1)
        (hout₁.trans hout) hst₂
      simp only
      generalize resolveNames defined' span' _ (name :: _) _ _ _ = y at h₂ ⊢
      cases h₂ with
      | ok hout₂ hst₃ => exact ihrest hcontext₁ hout₂ hst₃

theorem resolve_abreast (hκ : Collapses hidden κ)
    (heq : Table.mapValues (Typing.renameUses κ) defined' =
      Table.mapValues (Typing.renameUses κ) defined)
    (hdef : ∀ x ∈ Table.keys defined, x ∉ hidden) (span span' : Span)
    (hcontext : outside hidden context' = outside hidden context)
    (hout : outside hidden out' = outside hidden out) (hst : st.Matches st') :
    Abreast (fun c c' => outside hidden c' = outside hidden c) (resolve out defined span context st)
      (resolve out' defined' span' context' st') := by
  have hlen : defined'.length = defined.length := by
    simpa [Table.mapValues] using congrArg List.length heq
  have h := (resolutionRun defined span defined.length [] context out st).abreast hκ heq hdef span'
    hcontext hout hst
  rw [resolve_eq, resolve_eq, hlen]
  generalize resolveNames defined span _ _ _ _ _ = x at h ⊢
  generalize resolveNames defined' span' _ _ _ _ _ = x' at h ⊢
  cases h with
  | ok hout hst => exact .ok hout hst
  | error hst => exact .error hst

/-! ### Signatures -/

/-- Two stacks of scopes that declare no hidden names and differ in the names for hidden uses. -/
def SameOutside (hidden : List String) (κ : String → String) (scopes scopes' : List Defined) :
    Prop :=
  List.Forall₂ (fun d d' => Table.mapValues (Typing.renameUses κ) d' =
    Table.mapValues (Typing.renameUses κ) d ∧ ∀ x ∈ Table.keys d, x ∉ hidden) scopes scopes'

theorem resolveThrough_abreast (hκ : Collapses hidden κ) (span span' : Span)
    {scopes scopes' : List Defined} (hscopes : SameOutside hidden κ scopes scopes')
    (hcontext : outside hidden context' = outside hidden context) (hst : st.Matches st') :
    Abreast (fun _ _ => True) (resolveThrough span scopes context st)
      (resolveThrough span' scopes' context' st') := by
  induction hscopes generalizing context context' st st' with
  | nil => exact .ok trivial hst
  | @cons scope scope' scopes scopes' hscope _ ih =>
    have h := resolve_abreast hκ hscope.1 hscope.2 span span' hcontext (rfl : outside hidden [] = _)
      hst
    rw [resolveThrough, resolveThrough, Infer.bind_apply, Infer.bind_apply]
    generalize resolve [] scope span context st = x at h ⊢
    generalize resolve [] scope' span' context' st' = x' at h ⊢
    cases h with
    | error hst => exact .error hst
    | ok hcontext hst => exact ih hcontext hst

/-- What a signature says, without the place of the declaration. -/
def Signature.entry (s : Signature) : String × String := (s.name, s.type)

/-- The type that is reported is the type of the instance, as far as it is known in the end. -/
theorem signature_fst (scopes : List Defined) (span : Span) (name : String) (value : Typing)
    (st : State) :
    (signature scopes span name value st).1 =
      ⟨name, ((signature scopes span name value st).2.subst.apply
        (instantiate value st).1.ty).text, span⟩ := by
  rw [signature]
  simp only [State.bind_apply, ExceptT.run]
  rcases resolveThrough _ _ _ _ with ⟨problem | _, st₁⟩ <;> rfl

/-- **Declarations are reported abreast**, whatever hidden uses are called. -/
theorem signature_abreast (hκ : Collapses hidden κ) (span span' : Span) (name : String)
    {scopes scopes' : List Defined} (hscopes : SameOutside hidden κ scopes scopes')
    {T T' : Typing} (hT : T'.renameUses κ = T.renameUses κ) (hst : st.Matches st') :
    (signature scopes' span' name T' st').1.entry = (signature scopes span name T st).1.entry ∧
      (signature scopes span name T st).2.Matches (signature scopes' span' name T' st').2 := by
  obtain ⟨hcopy, hst₁⟩ := hst.instantiate_collapsed hT
  -- the report is read off at the end, so it is enough that the final states match
  have hmatch : (signature scopes span name T st).2.Matches
      (signature scopes' span' name T' st').2 := by
    have h := resolveThrough_abreast hκ span span' hscopes
      (Typing.outside_eq_of_renameUses hκ hcopy) hst₁
    rw [signature_eq, signature_eq]
    generalize resolveThrough span scopes _ _ = x at h ⊢
    generalize resolveThrough span' scopes' _ _ = x' at h ⊢
    cases h with
    | ok _ hst => exact hst
    | error hst => exact hst.logged _ _
  refine ⟨?_, hmatch⟩
  rw [signature_fst, signature_fst, Signature.entry, Signature.entry, hmatch.subst,
    Typing.ty_eq_of_renameUses hcopy]

end Hidden

/-! ### Statements -/

@[simp] theorem Typing.renameUses_id (T : Typing) : T.renameUses id = T := by
  induction T using Typing.induction with
  | mk ty context defined ih =>
    rw [renameUses_mk, Table.mapKeys_eq_self (σ := id) fun _ _ => rfl]
    refine congrArg _ ((List.map_congr_left fun e he => ?_).trans (List.map_id defined))
    rw [ih e he]
    rfl

theorem collapses_id : Collapses [] id := ⟨fun _ _ => rfl, fun _ h => h⟩

/-- A statement is taken in abreast, with other names for uses. -/
theorem absorb_abreast (hρ : ρ.Injective) {sofar stmt : Typing}
    (hsofar : ∀ x ∈ Table.keys sofar.defined, ρ x = x)
    (hstmt : ∀ x ∈ Table.keys stmt.defined, ρ x = x) (span span' : Span) (hst : st.Matches st') :
    Abreast (fun T T' => T' = T.renameUses ρ) (absorb sofar span stmt st)
      (absorb (sofar.renameUses ρ) span' (stmt.renameUses ρ) st') := by
  obtain ⟨hcopy, hst₁⟩ := hst.instantiate (ρ := id) stmt
  rw [Typing.renameUses_id, Typing.renameUses_id] at hcopy
  rw [Typing.renameUses_id] at hst₁
  -- the names are changed after the run, so here the statements are the same and nothing is hidden
  have h : Abreast (fun c c' => outside [] c' = outside [] c)
      (resolve sofar.context (Table.insertAll sofar.defined (instantiate stmt st).1.defined) span
        (instantiate stmt st).1.context (instantiate stmt st).2)
      (resolve sofar.context (Table.insertAll sofar.defined (instantiate stmt st).1.defined) span'
        (instantiate stmt st).1.context (instantiate stmt st').2) :=
    resolve_abreast collapses_id rfl (fun _ _ => List.not_mem_nil) span span' rfl rfl hst₁
  rw [absorb_renameUses hρ sofar span' stmt hsofar hstmt, Infer.map_apply, absorb_eq, absorb_eq,
    hcopy]
  generalize resolve sofar.context _ span _ _ = x at h ⊢
  generalize resolve sofar.context _ span' _ _ = x' at h ⊢
  cases h with
  | error hst => exact .error hst
  | ok hcontext hst =>
    rw [outside_nothing, outside_nothing] at hcontext
    rw [hcontext]
    exact .ok rfl hst

end LetTyping
