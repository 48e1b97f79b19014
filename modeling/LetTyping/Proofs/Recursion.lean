import LetTyping.Proofs.Completeness
import LetTyping.Proofs.Fatal
import LetTyping.Proofs.Unbounded

/-!
# Declarations in terms of themselves

Declarations form a graph: a declared name leads to the names that its declaration uses.  Resolving
the names of a context walks through the part of the graph that the context leads to.  A name that
is met on two ways is resolved on both; only a name that leads back to itself makes the walk go
round, and then it is stopped.

The walk is bounded by the number of declarations, and the functions that it uses on its way, to
copy typings and to make types equal, are bounded too.  Here all of it is described without bounds,
by relations with finite derivations, and the bounds are shown never to be met.  The names of the
chain are declared and no two are equal.  The variables are allocated and none reaches itself, and
this stays so along the way.

Without the last condition there may be no end.  A typing over variables that are not allocated may
have the variables that its copy is to get; then the copy is made by replacing variables by each
other, over and over.

## Main definitions

* `MetFrom` — the names, declared or not, that resolving some names meets.
* `Copies`, `EquatesAll` — copying a typing and meeting all uses of a name, without bounds.
* `Expansion` — resolving names without bounds.
* `Scoped` — all that takes part in a resolution is over allocated variables.

## Main results

* `Scoped.expansion_iff` — there is exactly one expansion, and `resolveInto` gives its result.
* `Expansion.acc`, `Expansion.keys`, `Expansion.stops` — what the result says about the graph.
* `resolveInto_recursion` — **resolving names ends, and it stops exactly at the declarations in
  terms of themselves.**
* `expansion_unallocated_endless` — without an allocation there may be no end.
-/

namespace LetTyping

open Relation (ReflTransGen TransGen)

/-! ### The graph of declarations -/

section Graph

variable {defined : Defined} {names : List String} {name x y : String} {declared : Typing}

/-- One of the names, or a name that they lead to through declarations. -/
def MetFrom (defined : Defined) (names : List String) (y : String) : Prop :=
  ∃ x ∈ names, ReflTransGen (Leads defined) x y

theorem metFrom_self (h : y ∈ names) : MetFrom defined names y := ⟨y, h, .refl⟩

theorem not_metFrom_nil : ¬MetFrom defined [] y := by
  rintro ⟨x, hx, -⟩
  cases hx

theorem metFrom_cons_undeclared (hget : Table.get? defined name = none) :
    MetFrom defined (name :: names) y ↔ y = name ∨ MetFrom defined names y := by
  constructor
  · rintro ⟨x, hx, hpath⟩
    rcases List.mem_cons.mp hx with rfl | hx
    · rcases hpath.cases_head with rfl | ⟨next, ⟨T, hT, -⟩, -⟩
      · exact Or.inl rfl
      · rw [hget] at hT
        cases hT
    · exact Or.inr ⟨x, hx, hpath⟩
  · rintro (rfl | ⟨x, hx, hpath⟩)
    · exact metFrom_self List.mem_cons_self
    · exact ⟨x, List.mem_cons_of_mem _ hx, hpath⟩

/-- From a declared name, the names of its declaration are met. -/
theorem metFrom_cons_declared (hget : Table.get? defined name = some declared) :
    MetFrom defined (name :: names) y ↔
      y = name ∨ MetFrom defined (Table.keys declared.context) y ∨ MetFrom defined names y := by
  constructor
  · rintro ⟨x, hx, hpath⟩
    rcases List.mem_cons.mp hx with rfl | hx
    · rcases hpath.cases_head with rfl | ⟨next, ⟨T, hT, hnext⟩, hpath⟩
      · exact Or.inl rfl
      · rw [hget] at hT
        cases hT
        exact Or.inr (Or.inl ⟨next, hnext, hpath⟩)
    · exact Or.inr (Or.inr ⟨x, hx, hpath⟩)
  · rintro (rfl | ⟨next, hnext, hpath⟩ | ⟨x, hx, hpath⟩)
    · exact metFrom_self List.mem_cons_self
    · exact ⟨name, List.mem_cons_self, hpath.head ⟨declared, hget, hnext⟩⟩
    · exact ⟨x, List.mem_cons_of_mem _ hx, hpath⟩

/-- Where every way from a name ends, every way from a name that it leads to does. -/
theorem acc_of_reflTransGen (h : Acc (fun y x => Leads defined x y) x)
    (hpath : ReflTransGen (Leads defined) x y) : Acc (fun y x => Leads defined x y) y := by
  induction hpath with
  | refl => exact h
  | tail _ hedge ih => exact ih.inv hedge

end Graph

/-! ### Uses -/

/-- Every name of a context is used. -/
def Context.AllUsed (c : Context) : Prop := ∀ e ∈ c, e.2 ≠ []

instance (c : Context) : Decidable c.AllUsed :=
  inferInstanceAs (Decidable (∀ e ∈ c, e.2 ≠ []))

theorem Context.AllUsed.map {c : Context} (h : c.AllUsed) (g : Ty → Ty) :
    Context.AllUsed (Uses.map g c) := by
  intro e he
  obtain ⟨e, hmem, rfl⟩ := List.mem_map.mp he
  simpa using h e hmem

theorem mem_keys_addAll {out : Context} {name y : String} {uses : List Ty} :
    y ∈ Table.keys (Uses.addAll out name uses) ↔ y ∈ Table.keys out ∨ y = name := by
  rw [Uses.addAll, Table.keys_alter]
  split <;> simp_all

/-- A name that is used passes out. -/
theorem mem_keys_passOut {out : Context} {name y : String} {uses : List Ty} (huses : uses ≠ []) :
    y ∈ Table.keys (Uses.passOut out name uses) ↔ y ∈ Table.keys out ∨ y = name := by
  induction uses generalizing out with
  | nil => exact absurd rfl huses
  | cons t uses ih =>
    rw [Uses.passOut, List.foldl_cons, ← Uses.passOut]
    cases uses with
    | nil => exact mem_keys_addAll
    | cons u uses => rw [ih (List.cons_ne_nil u uses), mem_keys_addAll, or_assoc, or_self]

/-! ### Copies and uses without bounds -/

/-- Following bindings from all the types of a typing comes to an end. -/
def Typing.LeadsTo (s : Subst) (T T' : Typing) : Prop :=
  ∃ g : Ty → Ty, (T.All fun t => s.LeadsTo t (g t)) ∧ T' = T.mapTypes g

theorem Typing.leadsTo_iff {s : Subst} (hs : s.Acyclic) {T T' : Typing} :
    T.LeadsTo s T' ↔ T' = T.apply s := by
  constructor
  · rintro ⟨g, hg, rfl⟩
    exact mapTypes_congr (hg.imp fun t ht => hs.leadsTo_iff.mp ht)
  · rintro rfl
    exact ⟨s.apply, fun t _ => hs.leadsTo_iff.mpr rfl, rfl⟩

/-- Copying a typing comes to an end: its bindings are followed, and then the fresh variables are
put in the place of the unbound ones by following bindings once more. -/
inductive Copies (T : Typing) (st : State) : Typing × State → Prop
  | intro {resolved copy : Typing} : T.LeadsTo st.subst resolved →
      resolved.LeadsTo (renumbering st.count resolved.freeVars) copy →
      Copies T st (copy, { st with count := st.count + resolved.freeVars.length })

/-- A copy has the shape of the typing. -/
theorem Copies.eq_mapTypes {T copy : Typing} {st st' : State} (h : Copies T st (copy, st')) :
    ∃ g, copy = T.mapTypes g := by
  obtain ⟨⟨g, -, rfl⟩, g', -, rfl⟩ := h
  exact ⟨fun t => g' (g t), Typing.mapTypes_mapTypes g g' T⟩

theorem Copies.keys_context {T copy : Typing} {st st' : State} (h : Copies T st (copy, st')) :
    Table.keys copy.context = Table.keys T.context := by
  obtain ⟨g, rfl⟩ := h.eq_mapTypes
  rw [Typing.mapTypes_context, Uses.keys_map]

theorem Copies.allUsed {T copy : Typing} {st st' : State} (h : Copies T st (copy, st'))
    (hT : T.context.AllUsed) : copy.context.AllUsed := by
  obtain ⟨g, rfl⟩ := h.eq_mapTypes
  rw [Typing.mapTypes_context]
  exact hT.map g

/-- **Copying a typing over allocated variables comes to its end.** -/
theorem copies_iff {K : Nat → Prop} {T : Typing} {st : State} {out : Typing × State}
    (h : Region K st) (hT : T.All (Owns Anywhere st)) :
    Copies T st out ↔ out = instantiate T st := by
  -- the new numbers are above those of the resolved typing
  have hlt : ∀ n ∈ (T.apply st.subst).freeVars.map TVar.id, n < st.count :=
    fun n hn => h.ids_apply_lt hT n (Typing.mem_freeVars.mp hn)
  have hfresh := renumbering_acyclic (TVar.nodup_distinct _) hlt
  constructor
  · rintro ⟨hresolved, hcopy⟩
    obtain rfl := (Typing.leadsTo_iff h.acyclic).mp hresolved
    obtain rfl := (Typing.leadsTo_iff hfresh).mp hcopy
    rfl
  · rintro rfl
    exact .intro ((Typing.leadsTo_iff h.acyclic).mpr rfl) ((Typing.leadsTo_iff hfresh).mpr rfl)

/-- Making a type equal to some others, one after another, comes to an end. -/
inductive EquatesAll (span : Span) (description : String) (a : Ty) :
    List Ty → State → Except Problem Unit × State → Prop
  | nil {st} : EquatesAll span description a [] st (.ok (), st)
  | clash {b bs st cause s} : st.subst.Equates a b (.error cause, s) →
      EquatesAll span description a (b :: bs) st
        (.error ⟨cause.whileChecking description, span⟩, { st with subst := s })
  | next {b bs st s res} : st.subst.Equates a b (.ok (), s) →
      EquatesAll span description a bs { st with subst := s } res →
      EquatesAll span description a (b :: bs) st res

theorem equatesAll_iff {span : Span} {description : String} {a : Ty} {bs : List Ty} :
    ∀ {st : State} {out : Except Problem Unit × State}, st.subst.Acyclic →
      (EquatesAll span description a bs st out ↔ out = equateAll span description a bs st) := by
  induction bs with
  | nil =>
    intro st out _
    constructor
    · intro h
      cases h
      rfl
    · rintro rfl
      exact .nil
  | cons b bs ih =>
    intro st out hs
    obtain ⟨hs', -⟩ := unify_spec hs a b
    -- both sides unify the first pair, with one and the same result
    have hiff : ∀ {found}, st.subst.Equates a b found ↔ found = unify st.subst a b :=
      Subst.equates_iff hs
    rw [equateAll_cons, equate_eq]
    rcases hunify : unify st.subst a b with ⟨cause | _, s⟩ <;> rw [hunify] at hs' hiff
    · constructor
      · intro h
        cases h with
        | clash hb =>
          cases hiff.mp hb
          simp [State.unified, hunify]
        | next hb _ => cases hiff.mp hb
      · rintro rfl
        simpa [State.unified, hunify] using .clash (hiff.mpr rfl)
    -- the bindings are acyclic again, so the others are equated from them
    · have hrest : EquatesAll span description a bs { st with subst := s } out ↔
          out = equateAll span description a bs { st with subst := s } := ih hs'
      simp only [State.unified, hunify]
      refine ⟨fun h => ?_, fun h => .next (hiff.mpr rfl) (hrest.mpr h)⟩
      cases h with
      | clash hb => cases hiff.mp hb
      | next hb hbs =>
        cases hiff.mp hb
        exact hrest.mp hbs

theorem EquatesAll.clashes {span : Span} {description : String} {a : Ty} {bs : List Ty}
    {st : State} {out : Except Problem Unit × State} {problem : Problem}
    (h : EquatesAll span description a bs st out) (herror : out.1 = .error problem) :
    problem.val.Clashes description ∧ problem.span = span := by
  induction h with
  | nil => cases herror
  | clash hb =>
    cases herror
    cases hb with
    | infinite _ => exact ⟨.infinite _ _, rfl⟩
    | mismatch _ _ _ => exact ⟨.mismatch _ _, rfl⟩
  | next _ _ ih => exact ih herror

/-! ### Expansion -/

/-- Resolving the names of a context, given the chain of the names that are being resolved, without
a bound on its length or on anything that is done on the way. -/
inductive Expansion (defined : Defined) (span : Span) :
    List String → Context → Context → State → Outcome Unit Context × State → Prop
  | nil {chain out st} : Expansion defined span chain [] out st ((.ok (), out), st)
  /-- An undeclared name passes out. -/
  | undeclared {chain name uses context out st res} : Table.get? defined name = none →
      Expansion defined span chain context (Uses.passOut out name uses) st res →
      Expansion defined span chain ((name, uses) :: context) out st res
  /-- A declared name comes up again while it is being resolved. -/
  | recursive {chain name uses context out st} :
      name ∈ Table.keys defined → name ∈ chain →
      Expansion defined span chain ((name, uses) :: context) out st
        ((.error ⟨.recursive name, span⟩, out), st)
  /-- The type of the copy differs from a use. -/
  | clash {chain name uses context out st declared copy st₁ problem st₂} :
      Table.get? defined name = some declared → name ∉ chain →
      Copies declared st (copy, st₁) →
      EquatesAll span (useOf name) copy.ty uses (st₁.logged (.resolved name uses.length))
        (.error problem, st₂) →
      Expansion defined span chain ((name, uses) :: context) out st ((.error problem, out), st₂)
  /-- The names of the declaration cannot be resolved. -/
  | fail {chain name uses context out st declared copy st₁ st₂ problem out₁ st₃} :
      Table.get? defined name = some declared → name ∉ chain →
      Copies declared st (copy, st₁) →
      EquatesAll span (useOf name) copy.ty uses (st₁.logged (.resolved name uses.length))
        (.ok (), st₂) →
      Expansion defined span (name :: chain) copy.context out st₂ ((.error problem, out₁), st₃) →
      Expansion defined span chain ((name, uses) :: context) out st ((.error problem, out₁), st₃)
  /-- A declared name is resolved, and the other names follow. -/
  | declared {chain name uses context out st declared copy st₁ st₂ out₁ st₃ res} :
      Table.get? defined name = some declared → name ∉ chain →
      Copies declared st (copy, st₁) →
      EquatesAll span (useOf name) copy.ty uses (st₁.logged (.resolved name uses.length))
        (.ok (), st₂) →
      Expansion defined span (name :: chain) copy.context out st₂ ((.ok (), out₁), st₃) →
      Expansion defined span chain context out₁ st₃ res →
      Expansion defined span chain ((name, uses) :: context) out st res

/-- The declarations and a context are over the allocated variables of a state, no variable of which
reaches itself. -/
structure Scoped (defined : Defined) (context : Context) (st : State) : Prop where
  region : Region Anywhere st
  defined : ∀ e ∈ defined, e.2.All (Owns Anywhere st)
  context : Uses.All (Owns Anywhere st) context

variable {defined : Defined} {span : Span} {chain : List String} {context out : Context}
  {st : State} {res : Outcome Unit Context × State}

namespace Scoped

variable {name : String} {uses : List Ty} {declared : Typing} {result : Except Problem Unit}
  {st₁ : State}

theorem tail (h : Scoped defined ((name, uses) :: context) st) : Scoped defined context st :=
  ⟨h.region, h.defined, (Uses.all_cons.mp h.context).2⟩

theorem evolve {K : Nat → Prop} (h : Scoped defined context st) (hev : Evolves K st st₁) :
    Scoped defined context st₁ where
  region := hev.region.all
  defined := fun e he => (h.defined e he).imp fun _ ht => ht.mono hev.count_le
  context := fun e he t ht => (h.context e he t ht).mono hev.count_le

/-- Meeting the uses of a declared name leaves everything scoped, also the context of the copy. -/
theorem meet (h : Scoped defined ((name, uses) :: context) st)
    (hget : Table.get? defined name = some declared)
    (heq : equateAll span (useOf name) (instantiate declared st).1.ty uses
      ((instantiate declared st).2.logged (.resolved name uses.length)) = (result, st₁)) :
    Scoped defined ((name, uses) :: context) st₁ ∧
      Scoped defined (instantiate declared st).1.context st₁ := by
  obtain ⟨hev, hcopy⟩ := instance_evolves h.region h.defined hget
    (Uses.all_cons.mp h.context).1 heq
  have h₁ := h.evolve hev
  exact ⟨h₁, h₁.region, h₁.defined, hcopy⟩

/-- Copying a declared typing comes to its end. -/
theorem copies (h : Scoped defined context st) (hget : Table.get? defined name = some declared)
    {copy : Typing} : Copies declared st (copy, st₁) ↔
      copy = (instantiate declared st).1 ∧ st₁ = (instantiate declared st).2 := by
  rw [copies_iff h.region (h.defined _ (Table.mem_of_get? hget)), Prod.ext_iff]

/-- Meeting the uses of a copy comes to its end: a copy binds nothing. -/
theorem equatesAll (h : Scoped defined context st) {found : Except Problem Unit × State} {n : Nat} :
    EquatesAll span (useOf name) (instantiate declared st).1.ty uses
        ((instantiate declared st).2.logged (.resolved name n)) found ↔
      found = equateAll span (useOf name) (instantiate declared st).1.ty uses
        ((instantiate declared st).2.logged (.resolved name n)) :=
  equatesAll_iff h.region.acyclic

end Scoped

/-- The bounds are not met: when there is no room left, the next name is being resolved already. -/
theorem ResolutionRun.expansion {depth : Nat}
    (hrun : ResolutionRun defined span depth chain context out st res)
    (h : Chained defined depth chain (Table.keys context)) (hscoped : Scoped defined context st) :
    Expansion defined span chain context out st res := by
  induction hrun with
  | nil => exact .nil
  | undeclared hget _ ih => exact .undeclared hget (ih h.tail hscoped.tail)
  | recursive hget hrec =>
    have hname := Table.mem_keys_of_get? hget
    -- a run that has no room left has all declared names in its chain, this one too
    rcases hrec with hmem | rfl
    · exact .recursive hname hmem
    · exact .recursive hname (h.full hname)
  | clash hget hnot heq =>
    exact .clash hget hnot ((hscoped.copies hget).mpr ⟨rfl, rfl⟩) (hscoped.equatesAll.mpr heq.symm)
  | fail hget hnot heq _ ih =>
    refine .fail hget hnot ((hscoped.copies hget).mpr ⟨rfl, rfl⟩)
      (hscoped.equatesAll.mpr heq.symm) (ih ?_ (hscoped.meet hget heq).2)
    -- the copy uses the names of its declaration, so the chain grows by one that leads to them
    rw [keys_context_instantiate]
    exact h.push hnot hget
  | declared hget hnot heq hinner _ ih ihrest =>
    obtain ⟨h₁, h₂⟩ := hscoped.meet hget heq
    obtain ⟨hev, -⟩ := hinner.evolves h₂.region h₂.defined h₂.context
    refine .declared hget hnot ((hscoped.copies hget).mpr ⟨rfl, rfl⟩)
      (hscoped.equatesAll.mpr heq.symm) (ih ?_ h₂) (ihrest h.tail (h₁.evolve hev).tail)
    rw [keys_context_instantiate]
    exact h.push hnot hget

/-- The result of an expansion is the result under every bound that is large enough. -/
theorem Expansion.eventually (h : Expansion defined span chain context out st res)
    (hscoped : Scoped defined context st) :
    ∃ bound, ∀ depth, bound ≤ depth →
      resolveNames defined span depth chain context out st = res := by
  induction h with
  | nil => exact ⟨0, fun depth _ => resolveNames_nil ..⟩
  | undeclared hget _ ih =>
    obtain ⟨bound, hbound⟩ := ih hscoped.tail
    exact ⟨bound, fun depth hle => by rw [resolveNames_undeclared hget, hbound depth hle]⟩
  | recursive hname hmem =>
    obtain ⟨declared, hget⟩ := Table.exists_get?_of_mem_keys hname
    exact ⟨0, fun depth _ => resolveNames_recursive hget (Or.inl hmem) ..⟩
  | clash hget hnot hcopy heq =>
    obtain ⟨rfl, rfl⟩ := (hscoped.copies hget).mp hcopy
    refine ⟨1, fun depth hle => ?_⟩
    obtain ⟨depth, rfl⟩ := Nat.exists_eq_add_of_le' hle
    rw [resolveNames_declared hget hnot, ← hscoped.equatesAll.mp heq]
  | fail hget hnot hcopy heq _ ih =>
    obtain ⟨rfl, rfl⟩ := (hscoped.copies hget).mp hcopy
    have heq := (hscoped.equatesAll.mp heq).symm
    obtain ⟨bound, hbound⟩ := ih (hscoped.meet hget heq).2
    refine ⟨bound + 1, fun depth hle => ?_⟩
    obtain ⟨depth, rfl⟩ := Nat.exists_eq_add_of_le' (Nat.le_of_add_left_le hle)
    rw [resolveNames_declared hget hnot, heq]
    simp only [hbound depth (by omega)]
  | declared hget hnot hcopy heq _ _ ih ihrest =>
    obtain ⟨rfl, rfl⟩ := (hscoped.copies hget).mp hcopy
    have heq := (hscoped.equatesAll.mp heq).symm
    obtain ⟨h₁, h₂⟩ := hscoped.meet hget heq
    obtain ⟨bound, hbound⟩ := ih h₂
    -- the names that follow are resolved in a state that comes from the inner resolution
    obtain ⟨hev, -⟩ := (resolutionRun defined span bound _ _ _ _).evolves h₂.region h₂.defined
      h₂.context
    rw [hbound bound le_rfl] at hev
    obtain ⟨rest, hrest⟩ := ihrest (h₁.evolve hev).tail
    refine ⟨max (bound + 1) rest, fun depth hle => ?_⟩
    obtain ⟨depth, rfl⟩ := Nat.exists_eq_add_of_le' (show 1 ≤ depth by omega)
    rw [resolveNames_declared hget hnot, heq]
    simp only [hbound depth (by omega), hrest (depth + 1) (by omega)]

/-- **Resolving the names of a context ends**: there is exactly one expansion, and `resolveInto`
gives its result. -/
theorem Scoped.expansion_iff (h : Scoped defined context st) :
    Expansion defined span [] context out st res ↔
      resolveInto out defined span context st = res := by
  have hrun : Expansion defined span [] context out st (resolveInto out defined span context st) :=
    (resolutionRun defined span defined.length [] context out st).expansion
      ⟨by simp, List.nodup_nil, by simp, by simp⟩ h
  refine ⟨fun hres => ?_, fun hres => hres ▸ hrun⟩
  obtain ⟨bound, hbound⟩ := hres.eventually h
  obtain ⟨bound', hbound'⟩ := hrun.eventually h
  rw [← hbound' _ (le_max_right bound bound'), hbound _ (le_max_left bound bound')]

/-! ### What the result says about the graph -/

/-- From a name that is resolved, every way through declarations ends. -/
theorem Expansion.acc {x : String} (h : Expansion defined span chain context out st res)
    (hok : res.1.1 = .ok ()) (hx : x ∈ Table.keys context) :
    Acc (fun y x => Leads defined x y) x := by
  induction h generalizing x with
  | nil => cases hx
  | undeclared hget _ ih =>
    rcases List.mem_cons.mp hx with rfl | hx
    -- an undeclared name leads nowhere
    · refine Acc.intro _ fun y hy => ?_
      obtain ⟨T, hT, -⟩ := hy
      rw [hget] at hT
      cases hT
    · exact ih hok hx
  | recursive => cases hok
  | clash => cases hok
  | fail => cases hok
  | declared hget _ hcopy _ _ _ ih ihrest =>
    rcases List.mem_cons.mp hx with rfl | hx
    -- what a declared name leads to is used by its copy, whose names are resolved
    · refine Acc.intro _ fun y hy => ?_
      obtain ⟨T, hT, hy⟩ := hy
      rw [hget] at hT
      cases hT
      exact ih rfl (by rwa [hcopy.keys_context])
    · exact ihrest hok hx

/-- The undeclared names that are met pass out, and no others. -/
theorem Expansion.keys {y : String} (h : Expansion defined span chain context out st res)
    (hok : res.1.1 = .ok ()) (hcontext : context.AllUsed)
    (hdefined : ∀ e ∈ defined, e.2.context.AllUsed) :
    y ∈ Table.keys res.1.2 ↔
      y ∈ Table.keys out ∨ y ∉ Table.keys defined ∧ MetFrom defined (Table.keys context) y := by
  induction h with
  | nil => simp [Table.keys, not_metFrom_nil]
  | @undeclared _ name _ _ _ _ _ hget _ ih =>
    have hname := Table.not_mem_keys_of_get? hget
    obtain ⟨huses, hcontext⟩ := List.forall_mem_cons.mp hcontext
    rw [ih hok hcontext, mem_keys_passOut huses, Table.keys_cons, metFrom_cons_undeclared hget]
    grind
  | recursive => cases hok
  | clash => cases hok
  | fail => cases hok
  | declared hget _ hcopy _ _ _ ih ihrest =>
    have hname := Table.mem_keys_of_get? hget
    obtain ⟨-, hcontext⟩ := List.forall_mem_cons.mp hcontext
    -- a copy has uses for its names, like the declaration that it is made from
    have hused := hcopy.allUsed (hdefined _ (Table.mem_of_get? hget))
    rw [ihrest hok hcontext, ih rfl hused, hcopy.keys_context, Table.keys_cons,
      metFrom_cons_declared hget]
    grind

/-- Where resolving names stops, a declared name that is met leads back to itself, or it is used at
types that it does not have. -/
theorem Expansion.stops {problem : Problem} (h : Expansion defined span chain context out st res)
    (herror : res.1.1 = .error problem)
    (hchain : ∀ x ∈ chain, ∀ y ∈ Table.keys context, TransGen (Leads defined) x y) :
    problem.span = span ∧ ∃ x ∈ Table.keys defined, MetFrom defined (Table.keys context) x ∧
      (problem.val = .recursive x ∧ TransGen (Leads defined) x x ∨
        problem.val.Clashes (useOf x)) := by
  induction h with
  | nil => cases herror
  | undeclared hget _ ih =>
    obtain ⟨hspan, x, hx, hmet, hproblem⟩ :=
      ih herror fun x hx y hy => hchain x hx y (List.mem_cons_of_mem _ hy)
    exact ⟨hspan, x, hx, (metFrom_cons_undeclared hget).mpr (Or.inr hmet), hproblem⟩
  | recursive hname hmem =>
    cases herror
    exact ⟨rfl, _, hname, metFrom_self List.mem_cons_self,
      Or.inl ⟨rfl, hchain _ hmem _ List.mem_cons_self⟩⟩
  | clash hget _ _ heq =>
    cases herror
    obtain ⟨hclash, hspan⟩ := heq.clashes rfl
    exact ⟨hspan, _, Table.mem_keys_of_get? hget, metFrom_self List.mem_cons_self, Or.inr hclash⟩
  | @fail chain name _ _ _ _ declared _ _ _ _ _ _ hget _ hcopy _ _ ih =>
    -- the chain leads to the name, and the name to those of its declaration
    have hinner : ∀ x ∈ name :: chain, ∀ y ∈ Table.keys declared.context,
        TransGen (Leads defined) x y := by
      intro x hx y hy
      have hedge : Leads defined name y := ⟨declared, hget, hy⟩
      rcases List.mem_cons.mp hx with rfl | hx
      · exact .single hedge
      · exact (hchain x hx name List.mem_cons_self).tail hedge
    rw [hcopy.keys_context] at ih
    obtain ⟨hspan, x, hx, hmet, hproblem⟩ := ih herror hinner
    exact ⟨hspan, x, hx, (metFrom_cons_declared hget).mpr (Or.inr (Or.inl hmet)), hproblem⟩
  | declared hget _ _ _ _ _ _ ihrest =>
    obtain ⟨hspan, x, hx, hmet, hproblem⟩ :=
      ihrest herror fun x hx y hy => hchain x hx y (List.mem_cons_of_mem _ hy)
    exact ⟨hspan, x, hx, (metFrom_cons_declared hget).mpr (Or.inr (Or.inr hmet)), hproblem⟩

/-- **Resolving names ends, and it stops exactly at the declarations in terms of themselves.**  In a
state whose variables are allocated and do not reach themselves, with declarations and a context
over allocated variables, there is one expansion, of finite depth, and its result is the one given.
Whatever the declarations, the context and the state are: when the names are resolved, no name that
is met leads back to itself, and the names that pass out are the undeclared ones that are met.  When
a declared name is called recursive, it is met and leads back to itself.  Whatever else stops the
resolution is a clash of types where a declared name is used. -/
theorem resolveInto_recursion (defined : Defined) (span : Span) (context out : Context) (st : State)
    (hcontext : context.AllUsed) (hdefined : ∀ e ∈ defined, e.2.context.AllUsed) :
    (st.subst.Acyclic → (∀ n t, st.subst[n]? = some t → n < st.count ∧ st.Allocated t) →
      (∀ e ∈ defined, e.2.All st.Allocated) → Uses.All st.Allocated context →
      ∀ res, Expansion defined span [] context out st res ↔
        resolveInto out defined span context st = res) ∧
    ∀ res, Expansion defined span [] context out st res →
      match res.1 with
      | (.ok (), out') =>
        (¬∃ x, MetFrom defined (Table.keys context) x ∧ TransGen (Leads defined) x x) ∧
        ∀ y, y ∈ Table.keys out' ↔ y ∈ Table.keys out ∨
          y ∉ Table.keys defined ∧ MetFrom defined (Table.keys context) y
      | (.error problem, _) =>
        problem.span = span ∧ ∃ x ∈ Table.keys defined, MetFrom defined (Table.keys context) x ∧
          (problem.val = .recursive x ∧ TransGen (Leads defined) x x ∨
            problem.val.Clashes (useOf x)) := by
  refine ⟨fun hacyclic halloc hdef hc res => ?_, ?_⟩
  · have hregion : Region Anywhere st :=
      ⟨hacyclic, halloc, fun _ _ _ _ _ _ => trivial, fun _ _ => trivial⟩
    exact Scoped.expansion_iff ⟨hregion, fun e he => (hdef e he).imp fun _ ht => ht.owns,
      fun e he t ht => (hc e he t ht).owns⟩
  · rintro ⟨⟨problem | _, out'⟩, st'⟩ hres
    · exact hres.stops rfl (by simp)
    · refine ⟨?_, fun y => hres.keys rfl hcontext hdefined⟩
      rintro ⟨x, ⟨root, hroot, hpath⟩, hcycle⟩
      exact not_transGen_of_acc (acc_of_reflTransGen (hres.acc rfl hroot) hpath) hcycle

/-- The name `h` is used by `f` and by `g`, and leads back to itself through `g`.  The type of `f`
is the one variable of the state. -/
theorem resolveInto_recursion_indirect :
    let used (ty : Ty) (names : List String) : Typing := ⟨ty, names.map (·, [.int]), []⟩
    let defined : Defined :=
      [("f", used (.var ⟨0, none⟩) ["h", "k"]), ("g", used .int ["h"]), ("h", used .int ["k", "g"])]
    let context : Context := [("k", [.int]), ("f", [.int, .int])]
    let st : State := { count := 1 }
    (context.AllUsed ∧ ∀ e ∈ defined, e.2.context.AllUsed) ∧
    ((∀ e ∈ defined, e.2.All st.Allocated) ∧ Uses.All st.Allocated context) ∧
    (∃ st', Expansion defined ⟨0, 1⟩ [] context [] st
      ((.error ⟨.recursive "h", ⟨0, 1⟩⟩, [("k", [.int, .int])]), st')) ∧
    MetFrom defined ["k", "f"] "h" ∧ TransGen (Leads defined) "h" "h" := by
  intro used defined context st
  have hused : context.AllUsed ∧ ∀ e ∈ defined, e.2.context.AllUsed := by decide +kernel
  have hscoped : (∀ e ∈ defined, e.2.All st.Allocated) ∧ Uses.All st.Allocated context := by
    unfold Typing.All Uses.All State.Allocated
    decide +kernel
  have hres : (resolveInto [] defined ⟨0, 1⟩ context st).1 =
      (.error ⟨.recursive "h", ⟨0, 1⟩⟩, [("k", [.int, .int])]) := by decide +kernel
  obtain ⟨hends, hgraph⟩ := resolveInto_recursion defined ⟨0, 1⟩ context [] st hused.1 hused.2
  rcases hout : resolveInto [] defined ⟨0, 1⟩ context st with ⟨out, st'⟩
  rw [hout] at hres
  obtain rfl : out = _ := hres
  have hrun := (hends region_start.acyclic (fun n t hn => by simp [st] at hn) hscoped.1 hscoped.2
    _).mpr hout
  obtain ⟨-, x, -, hmet, ⟨hrec, hcycle⟩ | hclash⟩ := hgraph _ hrun
  · cases hrec
    exact ⟨hused, hscoped, ⟨st', hrun⟩, hmet, hcycle⟩
  · cases hclash

/-- The copy of the declared typing is to get the variables 0 and 1, which are its own variables 1
and 0: each of the two is replaced by the other without an end. -/
theorem expansion_unallocated_endless :
    let declared : Typing := .closed (.product [.var ⟨1, none⟩, .var ⟨0, none⟩])
    let defined : Defined := [("f", declared)]
    let context : Context := [("f", [.int])]
    let st : State := {}
    st.subst.Acyclic ∧ (∀ n t, st.subst[n]? = some t → n < st.count ∧ st.Allocated t) ∧
      (context.AllUsed ∧ ∀ e ∈ defined, e.2.context.AllUsed) ∧
      (renumbering st.count declared.freeVars).follow? declared.ty = none ∧
      ¬∃ res, Expansion defined ⟨0, 0⟩ [] context [] st res := by
  intro declared defined context st
  let s := renumbering 0 declared.freeVars
  have hbound : s[1]? = some (.var ⟨0, none⟩) ∧ s[0]? = some (.var ⟨1, none⟩) := by decide +kernel
  -- each variable is bound to the other one, so there is a way from the first back to itself
  have hcycle : TransGen (fun t u => s.Below u t) (.var ⟨1, none⟩) (.var ⟨1, none⟩) :=
    .tail (.single (.binding hbound.1)) (.binding hbound.2)
  have hendless : ∀ u, ¬s.LeadsTo declared.ty u := by
    intro u hu
    exact not_transGen_of_acc (hu.acc.inv (.argument List.mem_cons_self)) hcycle
  -- without a resolved form there is no copy, and so none of the rules for a declared name
  have hcopy : ∀ found, ¬Copies declared st found := by
    rintro _ ⟨hresolved, g, hg, -⟩
    obtain rfl := (Typing.leadsTo_iff region_start.acyclic).mp hresolved
    rw [show declared.apply st.subst = declared by cbv] at hg
    exact hendless _ (Typing.all_iff.mp hg).1
  have hget : Table.get? defined "f" = some declared := rfl
  refine ⟨region_start.acyclic, region_start.allocated, by decide +kernel, ?_, ?_⟩
  · rw [Option.eq_none_iff_forall_ne_some]
    intro u hu
    exact hendless u (Subst.follow?_eq_some_iff.mp hu)
  · rintro ⟨res, hres⟩
    rw [show context = ("f", [.int]) :: [] from rfl] at hres
    cases hres with
    | undeclared hnone _ => simp [hget] at hnone
    | recursive _ hmem => simp at hmem
    | clash hsome _ hc _ | fail hsome _ hc _ _ | declared hsome _ hc _ _ _ =>
      cases hget.symm.trans hsome
      exact hcopy _ hc

end LetTyping
