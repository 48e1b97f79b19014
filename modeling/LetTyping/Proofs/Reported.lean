import Mathlib
import LetTyping.Proofs.Builtins
import LetTyping.Proofs.Sites

/-!
# Reported types

The signature of a declaration is made from an instance of the typing of its value, whose names are
resolved against the declarations around it.  A use of the declared name is resolved in another way:
the statement with the use is taken into its block, and the type of the use is made equal to that of
an instance.  Both lead to the same type.

Neither of the two runs follows the other, so they are not compared step by step.  Each is compared
with what the declarations offer: a name can be used at the types of those instances of its value
whose names can be resolved in turn.  The run that makes the signature reaches exactly these types,
and so does a block that ends with the name.  Types with the same instances have the same text.

## Main definitions

* `Ty.Spans` — the instances of a type are the given types.
* `Usable` — the types that a name can be used at, given the instances of its value.
* `offersFrom`, `scopeOffers` — what is offered after some statements, and by a scope.
* `Tree.declarations` — the names that a tree declares, once for each declaration.

## Main results

* `inferred_use_iff` — the types of a block that ends with a declared name.
* `usable_of_resolve`, `resolve_of_usable`, `signature_spans` — the type that a signature reports.
* `infer_block_sites`, `infer_block_reported` — the report of a name that is declared once.
* `check_alone` — without builtin names, what can be inferred passes its check.
* `check_reported_type` — **the type that is reported for a name is the type of its use.**
-/

namespace LetTyping

variable {st st' : State} {d : Table Instances} {i : Instances} {c c' out out' : Uses Plain}
  {t t' : Plain} {x : String} {ns ms : List (Tree Span)} {n v : Tree Span}

/-! ### Types with given instances -/

/-- The instances of the type are the given types. -/
def Ty.Spans (u : Ty) (S : Plain → Prop) : Prop := ∀ t, S t ↔ ∃ θ, t = u.eval θ

/-- **Types with the same instances have the same text.** -/
theorem Ty.Spans.text_eq {u u' : Ty} {S : Plain → Prop} (h : u.Spans S) (h' : u'.Spans S) :
    u'.text = u.text := by
  obtain ⟨θ, hθ⟩ := (h' u.untagged).mp ((h u.untagged).mpr ⟨.var, rfl⟩)
  obtain ⟨ζ, hζ⟩ := (h u'.untagged).mp ((h' u'.untagged).mpr ⟨.var, rfl⟩)
  exact (Ty.variant_of_eval hζ.symm hθ.symm).text_eq

/-! ### Uses of declared names -/

/-- The type is that of an instance whose names can be resolved against the declarations. -/
def Usable (D : Table Instances) (i : Instances) (t : Plain) : Prop :=
  ∃ c out out', i c t ∧ Settles id D c out out'

/-- What is out already plays no part in whether uses can be resolved. -/
theorem Settles.exists_from (h : Settles id d c out out') :
    ∀ from', ∃ to', Settles id d c from' to' := by
  induction h with
  | nil => exact fun from' => ⟨from', .nil⟩
  | @undeclared name ts _ _ _ hget _ ih =>
    intro from'
    obtain ⟨to', h⟩ := ih (Uses.passOut from' name ts)
    exact ⟨to', .undeclared hget h⟩
  | declared hget hi hts _ _ ih ihrest =>
    intro from'
    obtain ⟨mid, h⟩ := ih from'
    obtain ⟨to', hrest⟩ := ihrest mid
    exact ⟨to', .declared hget hi hts h hrest⟩

/-- What is offered after some statements. -/
def offersFrom (d : Table Instances) (ns : List (Tree Span)) : Table Instances :=
  ns.foldl (fun d n => Table.insertAll d n.offers) d

theorem composes_append : Composes (ns ++ ms) d c t c' t' ↔
    ∃ c₁ t₁, Composes ns d c t c₁ t₁ ∧ Composes ms (offersFrom d ns) c₁ t₁ c' t' := by
  induction ns generalizing d c t with
  | nil =>
    constructor
    · exact fun h => ⟨c, t, .nil, h⟩
    · rintro ⟨c₁, t₁, h, h'⟩
      cases h
      exact h'
  | cons n ns ih =>
    constructor
    · intro h
      cases h with
      | cons hn hsettles hrest =>
        obtain ⟨c₁, t₁, h, h'⟩ := ih.mp hrest
        exact ⟨c₁, t₁, .cons hn hsettles h, h'⟩
    · rintro ⟨c₁, t₁, h, h'⟩
      cases h with
      | cons hn hsettles hrest => exact .cons hn hsettles (ih.mpr ⟨c₁, t₁, hrest, h'⟩)

theorem Tree.inferred_var_iff (m : Span) : (var m x).inferred c t ↔ c = [(x, [t])] := by
  have hinstances : ∀ T st, (var m x).result {} = (.ok T, st) →
      ((T.apply st.subst).instances c t ↔ c = [(x, [t])]) := by
    intro T st hres
    rw [result_var] at hres
    cases hres
    rw [Typing.instances_apply region_start.acyclic]
    constructor
    · rintro ⟨η, -, rfl, rfl⟩
      rfl
    · rintro rfl
      -- a use of a name has any type, since its variable is free
      exact ⟨fun _ => t, fun n u hn => absurd hn (by simp), rfl, rfl⟩
  constructor
  · rintro ⟨T, st, hres, hct⟩
    exact (hinstances T st hres).mp hct
  · intro hc
    rcases hres : (var m x).result {} with ⟨problem | T, st⟩
    · rw [result_var] at hres
      cases hres
    · exact ⟨T, st, hres, (hinstances T st hres).mpr hc⟩

theorem Tree.offers_var (m : Span) (x : String) : (var m x).offers = [] := by
  rw [offers, result_var]
  rfl

/-- **A block that ends with the use of a declared name has the types that the name can be used
at.** -/
theorem inferred_use_iff (hget : Table.get? (offersFrom [] ns) x = some i) (l l' m : Span) :
    (∃ c, (Tree.block l (ns ++ [.var m x])).inferred c t) ↔
      (∃ c t', (Tree.block l' ns).inferred c t') ∧ Usable (offersFrom [] ns) i t := by
  simp only [Tree.inferred_block_iff, composes_append]
  constructor
  · rintro ⟨c, c₁, t₁, hns, hvar⟩
    cases hvar with
    | cons hn hsettles hrest =>
      cases hrest
      -- the use has one type, which is an instance of the declaration whose names are settled
      obtain rfl := (Tree.inferred_var_iff m).mp hn
      rw [Tree.offers_var, Table.insertAll_nil] at hsettles
      obtain ⟨c', t', out₁, hi, ht, hc', -⟩ := hsettles.declared_inv hget
      obtain rfl := ht t (List.mem_singleton_self t)
      exact ⟨⟨c₁, t₁, hns⟩, c', _, _, hi, hc'⟩
  -- a usable instance settles its names from any context, so also from that of the block
  · rintro ⟨⟨c₁, t₁, hns⟩, c', out, out', hi, hc'⟩
    obtain ⟨to', hto⟩ := hc'.exists_from c₁
    refine ⟨to', c₁, t₁, hns, .cons ((Tree.inferred_var_iff m).mpr rfl) ?_ .nil⟩
    rw [Tree.offers_var, Table.insertAll_nil]
    exact .declared hget hi (by simp) hto .nil

/-! ### What a block offers -/

theorem blockResult_offers (ns : List (Tree Span)) :
    ∀ {L : Nat → Prop} {sofar : Typing} {st : State}, Region Anywhere st → Apart L st sofar →
      ∀ {T : Typing} {st' : State}, blockResult sofar ns st = (.ok T, st') →
        (T.apply st'.subst).offers = offersFrom (sofar.apply st.subst).offers ns := by
  induction ns with
  | nil =>
    intro L sofar st _ _ T st' hres
    cases hres
    rfl
  | cons n ns ih =>
    intro L sofar st h hL T st' hres
    have h₀ := State.logged_evolves h.above (.statement n.kind n.label.start)
    rw [blockResult_cons, Infer.lift_bind_apply, record_eq] at hres
    obtain ⟨raw, st₁, hraw, hres⟩ := Infer.bind_ok hres
    obtain ⟨sofar', st₂, habsorb, hres⟩ := Infer.bind_ok hres
    -- what the statement offers does not depend on the state that it is inferred in
    obtain ⟨-, hoffers⟩ := Tree.result_standard (h₀.region_of h) hraw
    obtain ⟨h₁, M, hM⟩ := Tree.result_apart (h₀.region_of h) hraw
    have h₀₁ := h₀.step h₁
    have hL₁ := hL.evolve h₀₁
    have h₂ := (absorb_evolves (h₀₁.region_of h) hL₁.all hM.all n.label).1
    rw [habsorb] at h₂
    obtain ⟨⟨K, hK⟩, -⟩ := absorb_apart hL₁ hM habsorb
    rw [ih ((h₀₁.step h₂).region_of h) hK hres, absorb_offers hL₁ hM habsorb,
      h₀₁.apply_typing h hL.all, hoffers]
    rfl

/-- A block offers what its statements offer, one after another. -/
theorem Tree.result_block_offers {l : Span} {T : Typing}
    (hres : (Tree.block l ns).result {} = (.ok T, st)) :
    (T.apply st.subst).offers = offersFrom [] ns := by
  have hapart : Apart (({} : State).count ≤ ·) {} (.closed .unit) :=
    ⟨region_start.above, region_start.spares, Typing.all_closed.mp Owns.closed_unit, Uses.all_nil,
      List.forall_mem_nil _⟩
  rw [result_block] at hres
  exact blockResult_offers ns region_start hapart hres

theorem Tree.offers_decl {l : Span} {V : Typing} (hv : v.result {} = (.ok V, st)) :
    (decl l x v).offers = [(x, v.inferred)] := by
  have hres : (decl l x v).result {} = (.ok (declTyping x V), st) := by
    rw [result_decl]
    exact Infer.bind_of_ok hv _
  have hoffers : (decl l x v).offers = ((declTyping x V).apply st.subst).offers := by
    rw [offers, hres]
  rw [hoffers, apply_declTyping, ← (result_standard region_start hv).1]
  rfl

theorem Tree.declaring_of_offers (h : x ∈ Table.keys n.offers) : n.Declaring x := by
  rw [offers] at h
  rcases hres : n.result {} with ⟨problem | T, st⟩ <;> rw [hres] at h
  · exact absurd h List.not_mem_nil
  · refine (result_named n hres).keys_defined x ?_
    simpa only [Typing.offers, Table.keys_mapValues, Typing.apply, Typing.mapTypes_defined] using h

theorem get?_offersFrom_of_not_declaring (h : ∀ n ∈ ns, ¬n.Declaring x) :
    Table.get? (offersFrom d ns) x = Table.get? d x := by
  induction ns generalizing d with
  | nil => rfl
  | cons n ns ih =>
    rw [List.forall_mem_cons] at h
    rw [offersFrom, List.foldl_cons, ← offersFrom, ih h.2]
    exact Table.get?_insertAll_of_not_mem fun hx => h.1 (Tree.declaring_of_offers hx)

/-- The last declaration of a name is the one that is offered. -/
theorem get?_offersFrom_decl (d : Table Instances) (ns : List (Tree Span)) (l : Span) {V : Typing}
    (hv : v.result {} = (.ok V, st)) (hafter : ∀ n ∈ ms, ¬n.Declaring x) :
    Table.get? (offersFrom d (ns ++ .decl l x v :: ms)) x = some v.inferred := by
  rw [offersFrom, List.foldl_append, List.foldl_cons, ← offersFrom, ← offersFrom,
    get?_offersFrom_of_not_declaring hafter, Tree.offers_decl hv, Table.insertAll_cons,
    Table.insertAll_nil, Table.get?_insert, if_pos rfl]

/-! ### What is reported -/

/-- Without declarations all uses pass out, and nothing is bound. -/
theorem resolve_undeclared (span : Span) (context : Context) (st : State) :
    ∃ rest, resolve [] [] span context st = (.ok rest, st) := by
  have hnames : ∀ context out : Context, ∃ rest,
      resolveNames [] span 0 [] context out st = ((.ok (), rest), st) := by
    intro context
    induction context with
    | nil => exact fun out => ⟨out, resolveNames_nil ..⟩
    | cons e context ih =>
      intro out
      rw [resolveNames_undeclared rfl]
      exact ih _
  obtain ⟨rest, h⟩ := hnames context []
  refine ⟨rest, ?_⟩
  rw [resolve_eq, List.length_nil, h]

/-- What the declarations of a scope offer. -/
def scopeOffers (s : Subst) (scope : Defined) : Table Instances :=
  Table.mapValues (fun S => (S.apply s).instances) scope

section Report

variable {scope : Defined} {value : Typing} {rest : Context}

/-- A scope is spared by what is done to an instance. -/
theorem scope_spared (h : Region Anywhere st) (hscope : ∀ e ∈ scope, e.2.All (Owns Anywhere st))
    (hvalue : value.All (Owns Anywhere st)) :
    ∀ e ∈ scope, e.2.All (Owns (¬st.count ≤ ·) (instantiate value st).2) := by
  obtain ⟨hev, -⟩ := instantiate_evolves h.above hvalue
  exact fun e he => (hscope e he).imp fun _ ht => ht.spared.mono hev.count_le

theorem scopeOffers_instantiate (h : Region Anywhere st) (hvalue : value.All (Owns Anywhere st)) :
    scopeOffers (instantiate value st).2.subst scope = scopeOffers st.subst scope := by
  obtain ⟨-, -, -, heq⟩ := instantiate_evolves h hvalue
  rw [heq]

/-- When the names of an instance are resolved, it has become an instance that can be used. -/
theorem usable_of_resolve (h : Region Anywhere st)
    (hscope : ∀ e ∈ scope, e.2.All (Owns Anywhere st)) (hvalue : value.All (Owns Anywhere st))
    {span : Span} (hres : resolve [] scope span (instantiate value st).1.context
      (instantiate value st).2 = (.ok rest, st')) (θ : Nat → Plain) :
    Usable (scopeOffers st.subst scope) (value.apply st.subst).instances
      ((st'.subst.apply (instantiate value st).1.ty).eval θ) := by
  obtain ⟨hev, hcopy, -, -⟩ := instantiate_evolves h.above hvalue
  obtain ⟨-, hcontext, -⟩ := Typing.all_iff.mp hcopy
  have hown : ∀ e ∈ scope, e.2.All (Owns Anywhere (instantiate value st).2) :=
    fun e he => (scope_spared h hscope hvalue e he).imp fun _ ht => ht.anywhere
  have hallowed : Allowed id (instantiate value st).2 scope (scopeOffers st.subst scope) := by
    rw [← scopeOffers_instantiate h hvalue]
    exact offers_rel fun _ _ _ => id
  have hrun := resolutionRun scope span scope.length [] (instantiate value st).1.context []
    (instantiate value st).2
  rw [resolve_eq] at hres
  rcases hnames : resolveNames scope span scope.length [] _ [] _ with ⟨⟨problem | ⟨⟩, out⟩, st₁⟩ <;>
    rw [hnames] at hres hrun <;> cases hres
  -- any types for the variables that are left extend to a solution of all bindings
  have hacyclic := (hrun.evolves hev.region hown hcontext).1.region.acyclic
  obtain ⟨ζ, hty, hcontext'⟩ := instantiate_sound h hvalue (st'.subst.extend θ)
  rw [← hacyclic.eval_extend]
  exact ⟨_, _, _, ⟨ζ, hcontext', hty⟩,
    hrun.settles hev.region hown hcontext hallowed rfl (hacyclic.solves_extend θ)⟩

/-- If some instance can be used, then the names of a fresh instance can be resolved, and its type
still has the type of that one among its instances. -/
theorem resolve_of_usable (h : Region Anywhere st)
    (hscope : ∀ e ∈ scope, e.2.All (Owns Anywhere st)) (hvalue : value.All (Owns Anywhere st))
    (span : Span)
    (ht : Usable (scopeOffers st.subst scope) (value.apply st.subst).instances t) :
    ∃ rest st' θ, resolve [] scope span (instantiate value st).1.context
        (instantiate value st).2 = (.ok rest, st') ∧
      t = (st'.subst.apply (instantiate value st).1.ty).eval θ := by
  obtain ⟨hev, hcopy, -, heq⟩ := instantiate_evolves h.above hvalue
  obtain ⟨hty, hcontext, -⟩ := Typing.all_iff.mp hcopy
  have hspared := scope_spared h hscope hvalue
  have houtside : (instantiate value st).2.subst.ClosedOn fun n => ¬st.count ≤ n := by
    rw [heq]
    exact h.spares
  have hcovered : Covered id (instantiate value st).2 scope (scopeOffers st.subst scope) := by
    rw [← scopeOffers_instantiate h hvalue]
    exact offers_rel fun _ _ _ => id
  -- the instance is given by types for the variables of the value, and the copy takes them over
  obtain ⟨c, out, out', ⟨θ, rfl, rfl⟩, hsettles⟩ := ht
  obtain ⟨to', hsettles⟩ := hsettles.exists_from []
  obtain ⟨η, hη, -, heval, hmap⟩ := instantiate_complete h hvalue (h.acyclic.solves_extend .var) θ
  have hrun := resolutionRun scope span scope.length [] (instantiate value st).1.context []
    (instantiate value st).2
  -- so resolving follows the way that the usable instance has settled its names
  obtain ⟨hok, η', hη', hagree, -⟩ := hrun.complete ⟨hev.region, houtside, hcontext, Uses.all_nil,
    hspared, hcovered, ⟨by simp, List.nodup_nil, by simp, Nat.zero_add _⟩, hη⟩ (by rwa [hmap])
  have hacyclic := (hrun.evolves hev.region
    (fun e he => (hspared e he).imp fun _ ht => ht.anywhere) hcontext).1.region.acyclic
  rcases hnames : resolveNames scope span scope.length [] _ [] _ with ⟨⟨r, out⟩, st'⟩
  rw [hnames] at hok hη' hacyclic
  obtain rfl : r = .ok () := hok
  refine ⟨out, st', η', ?_, ?_⟩
  · rw [resolve_eq, hnames]
  · rw [hη'.eval_apply hacyclic, hty.eval_eq hagree, heval]

/-- **A signature has the type that stands for the types that the name can be used at**, if there
are any. -/
theorem signature_spans (h : Region Anywhere st)
    (hscope : ∀ e ∈ scope, e.2.All (Owns Anywhere st)) (hvalue : value.All (Owns Anywhere st))
    (span : Span) (name : String)
    (ht : Usable (scopeOffers st.subst scope) (value.apply st.subst).instances t) :
    ∃ u : Ty, (signature [scope, []] span name value st).1 = ⟨name, u.text, span⟩ ∧
      u.Spans (Usable (scopeOffers st.subst scope) (value.apply st.subst).instances) := by
  obtain ⟨rest, st', -, hresolve, -⟩ := resolve_of_usable h hscope hvalue span ht
  -- nothing is declared in the outer scope, so resolving through it succeeds
  obtain ⟨rest', hrest⟩ := resolve_undeclared span rest st'
  have hthrough : resolveThrough span [scope, []] (instantiate value st).1.context
      (instantiate value st).2 = (.ok (), st') := by
    rw [resolveThrough]
    refine (Infer.bind_of_ok hresolve _).trans ?_
    rw [resolveThrough]
    exact Infer.bind_of_ok hrest _
  refine ⟨st'.subst.apply (instantiate value st).1.ty, ?_, fun t => ⟨fun ht => ?_, ?_⟩⟩
  · rw [signature_fst, signature_snd, hthrough]
  -- resolving is a function, so it is the same run for every usable type
  · obtain ⟨rest₁, st₁, θ, hresolve₁, rfl⟩ := resolve_of_usable h hscope hvalue span ht
    rw [hresolve] at hresolve₁
    cases hresolve₁
    exact ⟨θ, rfl⟩
  · rintro ⟨θ, rfl⟩
    exact usable_of_resolve h hscope hvalue hresolve θ

end Report

/-! ### Where it is reported -/

namespace Tree

variable {α β : Type}

/-- The names that are declared somewhere in a tree, once for each declaration. -/
def declarations (t : Tree α) : List String := t.subtrees.filterMap ownDeclaration

theorem mem_declarations {t : Tree α} : x ∈ t.declarations ↔ t.Declaring x := List.mem_filterMap

theorem declarations_eq (t : Tree α) :
    t.declarations = t.ownDeclaration.toList ++ t.children.flatMap declarations := by
  rw [declarations, subtrees_eq, List.filterMap_cons, List.filterMap_flatMap]
  cases t.ownDeclaration <;> rfl

theorem declarations_map (f : α → β) (t : Tree α) : (t.map f).declarations = t.declarations := by
  induction t using Tree.childInduction with
  | step t ih =>
    rw [declarations_eq, declarations_eq t, children_map, List.flatMap_map]
    congr 1
    · cases t <;> rfl
    · exact List.flatMap_congr ih

/-- Only declared names are reported. -/
theorem mem_declarations_of_site {t : Tree Mark} {scopes : List Defined} :
    ∀ s ∈ t.sites scopes, s.name ∈ t.declarations := by
  induction t using Tree.induction generalizing scopes with
  | int m value | var m name => simp [sites]
  | tuple m elems ih | array m elems ih =>
    rw [sites, sitesList_eq_flatMap, List.forall_mem_flatMap, declarations_eq]
    exact fun t ht s hs => List.mem_append_right _ (List.mem_flatMap.mpr ⟨t, ht, ih t ht s hs⟩)
  | apply m fn arg ihf iha =>
    rw [sites, List.forall_mem_append, declarations_eq]
    exact ⟨fun s hs => by simp [children, ihf s hs], fun s hs => by simp [children, iha s hs]⟩
  | fn m params body ih | assign m name body ih =>
    rw [declarations_eq]
    exact fun s hs => by simpa [children, ownDeclaration] using ih s hs
  | ret m value ih =>
    rw [declarations_eq]
    exact fun s hs => by simpa [children, ownDeclaration] using ih s hs
  | decl m name value ih =>
    rw [sites, List.forall_mem_append, declarations_eq, List.forall_mem_map]
    exact ⟨fun T _ => by simp [ownDeclaration], fun s hs => by simp [children, ih s hs]⟩
  | block m stmts ih =>
    rw [sites, declarations_eq]
    cases m.typing with
    | none => simp
    | some T =>
      simp only [sitesList_eq_flatMap, List.forall_mem_flatMap]
      exact fun t ht s hs => List.mem_append_right _ (List.mem_flatMap.mpr ⟨t, ht, ih t ht s hs⟩)

/-- Where a name is not declared it is not reported. -/
theorem filter_sites {t : Tree Mark} (h : ¬t.erase.Declaring x) (scopes : List Defined) :
    (t.sites scopes).filter (fun s => s.name = x) = [] := by
  rw [← mem_declarations, erase, declarations_map] at h
  rw [List.filter_eq_nil_iff]
  intro s hs hname
  exact h (of_decide_eq_true hname ▸ mem_declarations_of_site s hs)

theorem filter_sitesList {ts : List (Tree Mark)} (h : ∀ n ∈ ts.map erase, ¬n.Declaring x)
    (scopes : List Defined) : (ts.flatMap (sites scopes)).filter (fun s => s.name = x) = [] := by
  rw [List.filter_flatMap, List.flatMap_eq_nil_iff]
  exact fun t ht => filter_sites (h _ (List.mem_map_of_mem ht)) scopes

end Tree

/-- A name that is declared once, by a statement of the block. -/
theorem split_of_declared_once {l d : Span} {stmts : List (Tree Span)} (hmem : .decl d x v ∈ stmts)
    (honce : (Tree.block l stmts).declarations.count x = 1) :
    ∃ before after, stmts = before ++ .decl d x v :: after ∧ ¬v.Declaring x ∧
      (∀ n ∈ before, ¬n.Declaring x) ∧ ∀ n ∈ after, ¬n.Declaring x := by
  obtain ⟨before, after, rfl⟩ := List.append_of_mem hmem
  -- the declarations of the block in order, with this one between the others
  have hblock : (Tree.block l (before ++ .decl d x v :: after)).declarations =
      before.flatMap Tree.declarations ++
        (x :: v.declarations ++ after.flatMap Tree.declarations) := by
    rw [Tree.declarations_eq]
    simp only [Tree.ownDeclaration, Option.toList_none, List.nil_append, Tree.children,
      List.flatMap_append, List.flatMap_cons]
    rw [Tree.declarations_eq (.decl d x v)]
    simp [Tree.ownDeclaration, Tree.children]
  rw [hblock, List.count_append, List.count_append, List.count_cons_self] at honce
  have hnone : x ∉ v.declarations ∧ x ∉ before.flatMap Tree.declarations ∧
      x ∉ after.flatMap Tree.declarations := by
    simp only [← List.count_eq_zero]
    omega
  simp only [List.mem_flatMap, Tree.mem_declarations, not_exists, not_and] at hnone
  exact ⟨before, after, rfl, hnone⟩

/-- All statements of a block that is inferred have typings. -/
theorem inferStatements_labels {ts ts' : List (Tree Mark)} {sofar T : Typing}
    (h : inferStatements sofar ts st = ((.ok T, ts'), st')) :
    ∀ t ∈ ts', ∃ U, t.label.typing = some U := by
  induction ts generalizing sofar st ts' with
  | nil =>
    rw [inferStatements_nil] at h
    cases h
    exact List.forall_mem_nil _
  | cons t ts ih =>
    obtain ⟨raw, t₁, st₁, sofar', st₂, ts₁, hres, -, hrest, rfl⟩ := inferStatements_cons_ok h
    have hlabel := infer_label t (st.logged (.statement t.kind t.label.span.start))
    rw [hres] at hlabel
    exact List.forall_mem_cons.mpr ⟨⟨raw, hlabel⟩, ih hrest⟩

/-- What inference leaves of a block. -/
theorem infer_block_shape {l : Span} {T : Typing} {root : Tree Mark}
    (h : infer (Tree.block l ns).unmarked st = ((.ok T, root), st')) :
    ∃ ts, root = .block ⟨l, some T⟩ ts ∧ ts.map Tree.erase = ns ∧
      ∀ t ∈ ts, ∃ U, t.label.typing = some U := by
  have herase := infer_erase h
  obtain ⟨ts, hstmts, rfl⟩ := infer_block_ok h
  refine ⟨ts, rfl, ?_, inferStatements_labels hstmts⟩
  exact (Tree.block.inj ((Tree.erase_block _ ts).symm.trans herase)).2

/-- The value of a declaration has the instances that inference finds for it. -/
theorem Recorded.decl {m : Mark} {w : Tree Mark} {U : Typing}
    (h : Recorded st (.decl m x w) U) :
    ∃ V, w.label.typing = some V ∧ (V.apply st.subst).instances = w.erase.inferred := by
  obtain ⟨c, st₁, st₂, hst, hinfer, hsame⟩ := h
  obtain rfl : .decl m.span x w.erase = c := infer_erase hinfer
  obtain ⟨V, w', hvalue, rfl, htree⟩ := infer_decl_ok hinfer
  obtain ⟨-, -, rfl⟩ := Tree.decl.inj htree
  have hlabel := infer_label w.erase.unmarked st₁
  rw [hvalue] at hlabel
  rw [apply_declTyping, apply_declTyping] at hsame
  have hV : V.apply st.subst = V.apply st₂.subst := by
    have hdefined := congrArg Typing.defined hsame
    exact (Prod.mk.inj (List.cons.inj hdefined).1).2
  refine ⟨V, hlabel, ?_⟩
  rw [hV]
  exact (Tree.result_standard hst (Tree.result_of_infer hvalue)).1

theorem infer_sites_owned {tree : Tree Span} {root : Tree Mark} {T : Typing}
    (h : infer tree.unmarked {} = ((.ok T, root), st)) : ∀ s ∈ root.sites [[]], s.Owned st := by
  have hroot : root.Owned Anywhere st := (infer_unmarked_owned region_start h).imp fun _ _ hS =>
    hS.imp fun _ ht => ht.anywhere
  refine Tree.sites_owned hroot fun s hs => ?_
  rw [List.mem_singleton.mp hs]
  exact List.forall_mem_nil _

section Declared

variable {before after : List (Tree Span)} {l d : Span} {T : Typing} {root : Tree Mark}

/-- A name that a block declares once, by a statement, is reported once. -/
theorem infer_block_sites
    (h : infer (Tree.block l (before ++ .decl d x v :: after)).unmarked {} = ((.ok T, root), st))
    (hv : ¬v.Declaring x) (hbefore : ∀ n ∈ before, ¬n.Declaring x)
    (hafter : ∀ n ∈ after, ¬n.Declaring x) (outer : Defined) :
    ∃ V, (V.apply st.subst).instances = v.inferred ∧
      (root.sites [outer]).filter (fun s => s.name = x) = [⟨[T.defined, outer], d, x, V⟩] := by
  have hrecorded := infer_recorded _ region_start h
  obtain ⟨ts, rfl, hts, hlabels⟩ := infer_block_shape h
  -- the labelled tree has the same statements, and the declaration is one of them
  obtain ⟨ts₁, ts₂, rfl, rfl, hts₂⟩ := List.map_eq_append_iff.mp hts
  obtain ⟨t, ts₂, rfl, ht, rfl⟩ := List.map_eq_cons_iff.mp hts₂
  cases t with
  | decl m y w =>
    obtain ⟨rfl, rfl, rfl⟩ := Tree.decl.inj ht
    obtain ⟨U, hU⟩ := hlabels (.decl m y w) (by simp)
    have hmem : Tree.decl m y w ∈ (Tree.block ⟨l, some T⟩ (ts₁ ++ .decl m y w :: ts₂)).subtrees :=
      Tree.mem_subtrees_of_child (by simp [Tree.children]) (Tree.mem_subtrees_self _)
    obtain ⟨V, hV, hinstances⟩ := (hrecorded _ hmem U hU).decl
    refine ⟨V, hinstances, ?_⟩
    rw [Tree.sites]
    simp only [Tree.sitesList_eq_flatMap]
    -- no other statement has a site with this name, and neither has the value
    rw [List.flatMap_append, List.flatMap_cons, List.filter_append, List.filter_append,
      Tree.filter_sitesList hbefore, Tree.filter_sitesList hafter, Tree.sites, hV,
      List.filter_append, Tree.filter_sites hv]
    simp
  | _ => cases ht

/-- **The type that is reported for a name stands for the types that the name can be used at.** -/
theorem infer_block_reported
    (h : infer (Tree.block l (before ++ .decl d x v :: after)).unmarked {} = ((.ok T, root), st))
    (hv : ¬v.Declaring x) (hbefore : ∀ n ∈ before, ¬n.Declaring x)
    (hafter : ∀ n ∈ after, ¬n.Declaring x)
    (ht : Usable (offersFrom [] (before ++ .decl d x v :: after)) v.inferred t) :
    ∃ u : Ty, u.Spans (Usable (offersFrom [] (before ++ .decl d x v :: after)) v.inferred) ∧
      ((root.sites [[]]).map fun s => (s.report st).1).filter (fun s => s.name = x) =
        [⟨x, u.text, d⟩] := by
  obtain ⟨V, hV, hsites⟩ := infer_block_sites h hv hbefore hafter []
  obtain ⟨hev, -⟩ := infer_unmarked_evolves region_start h
  have hsite := infer_sites_owned h ⟨[T.defined, []], d, x, V⟩
    (List.mem_of_mem_filter (hsites ▸ List.mem_singleton_self _))
  -- the scope of the block offers what its statements offer
  have hoffers : scopeOffers st.subst T.defined =
      offersFrom [] (before ++ .decl d x v :: after) := by
    rw [scopeOffers, ← Typing.offers_apply]
    exact Tree.result_block_offers (Tree.result_of_infer h)
  rw [← hoffers, ← hV] at ht ⊢
  obtain ⟨u, hu, hspans⟩ := signature_spans hev.region.all (hsite.scopes _ List.mem_cons_self)
    hsite.value d x ht
  refine ⟨u, hspans, ?_⟩
  -- a report keeps the name of its site
  have hname : ((fun s : Signature => decide (s.name = x)) ∘ fun s : Site => (s.report st).1) =
      fun s => decide (s.name = x) := by
    funext s
    rw [Function.comp_apply, Site.report, signature_fst]
  rw [List.filter_map, hname, hsites, List.map_singleton, ← hu]
  rfl

end Declared

/-! ### Programs without builtin names -/

/-- Without builtin names, a program that can be inferred passes its check. -/
theorem check_alone [Alphabet] {source : String} {tree : Tree Span} {T : Typing} {root : Tree Mark}
    (hparse : parse source = .ok tree) (hinfer : infer tree.unmarked {} = ((.ok T, root), st)) :
    ∃ p events, check false source = (.ok p, events) ∧
      p.programType = (st.subst.apply T.ty).text ∧
      p.signatures = (root.sites [[]]).map fun s => (s.report st).1 := by
  -- without builtin names all names are left over, and this is no failure
  obtain ⟨unresolved, hresolve⟩ := resolve_undeclared root.label.span T.context
    (st.logged (.inferred st.count T.context.length))
  have hscope : builtins false (st.logged (.inferred st.count T.context.length)) =
    ([], st.logged (.inferred st.count T.context.length)) := rfl
  obtain ⟨st', hrest⟩ := checkInferred_of_resolve hscope hresolve
  refine ⟨_, _, check_of_infer hparse hinfer hrest, ?_, ?_⟩
  · obtain ⟨-, htyping⟩ := checkResolved_apply region_start hinfer hscope hresolve
    have hty := congrArg Typing.ty htyping
    rw [Typing.apply, Typing.apply, Typing.mapTypes_ty, Typing.mapTypes_ty] at hty
    exact congrArg Ty.text hty
  -- lines of the log do not change what is reported
  · obtain ⟨hev, -⟩ := infer_unmarked_evolves region_start hinfer
    have hlogged := (State.logged_evolves hev.region.all.above
      (.inferred st.count T.context.length)).trans (State.logged_evolves
        (State.logged_evolves hev.region.all.above _).region (.preludeResolved unresolved.length))
    have hsame := (Site.reports_same hev.region.all (infer_sites_owned hinfer) hlogged).1
    rw [← signatures_eq] at hsame
    exact hsame

/-- The type of a program stands for the types that inference finds for it. -/
theorem infer_spans {tree : Tree Span} {T : Typing} {root : Tree Mark}
    (h : infer tree.unmarked {} = ((.ok T, root), st)) :
    (st.subst.apply T.ty).Spans fun t => ∃ c, tree.inferred c t := by
  have hresult := Tree.result_of_infer h
  have hty : (T.apply st.subst).ty = st.subst.apply T.ty := by rw [Typing.apply, Typing.mapTypes_ty]
  rw [← hty]
  intro t
  constructor
  · rintro ⟨c, T', st', hres, θ, -, rfl⟩
    rw [hresult] at hres
    cases hres
    exact ⟨θ, rfl⟩
  · rintro ⟨θ, rfl⟩
    exact ⟨_, T, st, hresult, θ, rfl, rfl⟩

theorem offersFrom_use (d : Table Instances) (ns : List (Tree Span)) (m : Span) (x : String) :
    offersFrom d (ns ++ [.var m x]) = offersFrom d ns := by
  rw [offersFrom, List.foldl_append, List.foldl_cons, List.foldl_nil, Tree.offers_var,
    Table.insertAll_nil]
  rfl

/-- A block that ends with the use of a declared name has the type that stands for the types that
the name can be used at. -/
theorem infer_use_spans {before after : List (Tree Span)} {l m d : Span} {T : Typing}
    {root : Tree Mark}
    (h : infer (Tree.block l (before ++ .decl d x v :: after ++ [.var m x])).unmarked {} =
      ((.ok T, root), st)) (hv : ∃ c t, v.inferred c t) (hafter : ∀ n ∈ after, ¬n.Declaring x) :
    (∃ c t, (Tree.block l (before ++ .decl d x v :: after)).inferred c t) ∧
      (st.subst.apply T.ty).Spans
        (Usable (offersFrom [] (before ++ .decl d x v :: after)) v.inferred) := by
  obtain ⟨_, _, V, stV, hvalue, -⟩ := hv
  have hget := get?_offersFrom_decl [] before d hvalue hafter
  have huse := fun t => inferred_use_iff (t := t) hget l l m
  have hspans := infer_spans h
  have hblock := ((huse _).mp ((hspans _).mpr ⟨.var, rfl⟩)).1
  refine ⟨hblock, fun t => ?_⟩
  exact (and_iff_right hblock).symm.trans ((huse t).symm.trans (hspans t))

/-- **The type that is reported for a name is the type of its use.**  If a program declares a name
once, by one of its statements, and ends with a use of the name, then the only signature of that
name has the type of the program; and so it has in the program without the use, which passes its
check too. -/
theorem check_reported_type [Alphabet] {source : String} {l m d : Span} {stmts : List (Tree Span)}
    {p : Checked} {events : List Event}
    (hparse : parse source = .ok (.block l (stmts ++ [.var m x])))
    (hdecl : .decl d x v ∈ stmts) (honce : (Tree.block l stmts).declarations.count x = 1)
    (hcheck : check false source = (.ok p, events)) :
    p.signatures.filter (fun s => s.name = x) = [⟨x, p.programType, d⟩] ∧
      ∀ source₀ l₀, parse source₀ = .ok (.block l₀ stmts) →
        ∃ p₀ events₀, check false source₀ = (.ok p₀, events₀) ∧
          p₀.signatures.filter (fun s => s.name = x) = [⟨x, p.programType, d⟩] := by
  -- a check that passes has inferred the program, and is the one described above
  obtain ⟨tree, T, root, st, st', hparse', hinfer, -⟩ := check_run hcheck
  obtain rfl : tree = .block l (stmts ++ [.var m x]) := Except.ok.inj (hparse'.symm.trans hparse)
  obtain ⟨p', events', hcheck', htype, hsignatures⟩ := check_alone hparse hinfer
  obtain rfl : p = p' := Except.ok.inj (Prod.mk.inj (hcheck.symm.trans hcheck')).1
  obtain ⟨before, after, rfl, hv, hbefore, hafter⟩ := split_of_declared_once hdecl honce
  have hsplit : before ++ .decl d x v :: after ++ [.var m x] =
    before ++ .decl d x v :: (after ++ [.var m x]) := by simp
  have hafter' : ∀ n ∈ after ++ [.var m x], ¬n.Declaring x := by
    rw [List.forall_mem_append, List.forall_mem_singleton]
    exact ⟨hafter, by simp [Tree.Declaring, Tree.subtrees, Tree.ownDeclaration]⟩
  have hinfer' := hinfer
  rw [hsplit] at hinfer'
  obtain ⟨V, hV, -⟩ := infer_block_sites hinfer' hv hbefore hafter' []
  -- the use gives the block its type, so this type stands for all that the name can have
  obtain ⟨⟨c, t₀, hblock⟩, hspans⟩ := infer_use_spans hinfer (hV ▸ ⟨_, _, .var, rfl, rfl⟩) hafter
  have ht := (hspans _).mpr ⟨.var, rfl⟩
  constructor
  -- a use at the end declares nothing, so the same is on offer without it
  · have hoffers := offersFrom_use [] (before ++ .decl d x v :: after) m x
    rw [hsplit] at hoffers
    obtain ⟨u, hu, hreported⟩ := infer_block_reported hinfer' hv hbefore hafter' (by rwa [hoffers])
    rw [hoffers] at hu
    rw [hsignatures, hreported, htype, hspans.text_eq hu]
  · intro source₀ l₀ hparse₀
    -- the block without its use can be inferred, since it is part of one that can be
    rw [Tree.inferred_block_iff, ← Tree.inferred_block_iff l₀] at hblock
    obtain ⟨T₀, st₀, hresult, -⟩ := hblock
    rcases hinfer₀ : infer (Tree.block l₀ (before ++ .decl d x v :: after)).unmarked {} with
      ⟨⟨r, root₀⟩, st₁⟩
    rw [Tree.result_of_infer hinfer₀] at hresult
    cases hresult
    obtain ⟨p₀, events₀, hcheck₀, -, hsignatures₀⟩ := check_alone hparse₀ hinfer₀
    obtain ⟨u, hu, hreported⟩ := infer_block_reported hinfer₀ hv hbefore hafter ht
    refine ⟨p₀, events₀, hcheck₀, ?_⟩
    rw [hsignatures₀, hreported, htype, hspans.text_eq hu]

/-- The type of `f` comes from that of `g`, which is declared after it. -/
theorem check_reported_type_later :
    ∃ p events p₀ events₀, check false "let f = (g, 1) let g = fn(y) y f" = (.ok p, events) ∧
      p.programType = "((a) -> a, Int)" ∧
      p.signatures.filter (fun s => s.name = "f") = [⟨"f", "((a) -> a, Int)", ⟨0, 14⟩⟩] ∧
      check false "let f = (g, 1) let g = fn(y) y" = (.ok p₀, events₀) ∧
      p₀.signatures.filter (fun s => s.name = "f") = [⟨"f", "((a) -> a, Int)", ⟨0, 14⟩⟩] := by
  let value : Tree Span := .tuple ⟨8, 14⟩ [.var ⟨9, 10⟩ "g", .int ⟨12, 13⟩ 1]
  let stmts : List (Tree Span) := [.decl ⟨0, 14⟩ "f" value,
    .decl ⟨15, 30⟩ "g" (.fn ⟨23, 30⟩ ["y"] (.var ⟨29, 30⟩ "y"))]
  obtain ⟨hparse, hparse₀⟩ : parse "let f = (g, 1) let g = fn(y) y f" =
        .ok (.block ⟨0, 32⟩ (stmts ++ [.var ⟨31, 32⟩ "f"])) ∧
      parse "let f = (g, 1) let g = fn(y) y" = .ok (.block ⟨0, 30⟩ stmts) := ⟨by cbv, by cbv⟩
  have hdecl : .decl ⟨0, 14⟩ "f" value ∈ stmts := List.mem_cons_self
  have honce : (Tree.block ⟨0, 32⟩ stmts).declarations.count "f" = 1 := by decide +kernel
  have htype : (checkTree false (.block ⟨0, 32⟩ (stmts ++ [.var ⟨31, 32⟩ "f"])) {}).1.toOption.map
      Checked.programType = some "((a) -> a, Int)" := by decide +kernel
  clear_value stmts value
  obtain ⟨p, hp, htype⟩ := Option.map_eq_some_iff.mp htype
  have hcheck := check_of_parse hparse hp
  obtain ⟨hreported, hwithout⟩ := check_reported_type hparse hdecl honce hcheck
  obtain ⟨p₀, events₀, hcheck₀, hreported₀⟩ := hwithout _ _ hparse₀
  rw [htype] at hreported hreported₀
  exact ⟨p, _, p₀, events₀, hcheck, htype, hreported, hcheck₀, hreported₀⟩

end LetTyping
