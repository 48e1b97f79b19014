import Mathlib
import LetTyping.Proofs.Abreast
import LetTyping.Proofs.Blame
import LetTyping.Proofs.Lockstep

/-!
# Signatures one by one

The signatures of a tree are made one after another in one state.  Each of them unifies types, and a
scope that cannot be resolved leaves behind what was bound before the problem.  Still none of them
shows in what is there already: a signature is made from an instance, and all that is bound for it
are variables of its own.  So the typings of the tree, the type of the program and the failed
applications read the same after the signatures as before, and every signature is the one that would
be made first.

That a signature is the same in a later state is not a matter of what is bound alone, since the
variables of its instance have other numbers there.  The two runs are in lockstep up to their ends,
with or without a problem, and the text of a type does not depend on numbers.

## Main definitions

* `Site` — a declaration with what its signature is made from.
* `Tree.sites` — the declarations of a tree that are reported, in source order.

## Main results

* `resolveThrough_tandem`, `signature_inStep` — signatures in lockstep have the same texts.
* `signatures_eq` — the signatures of a tree are the reports of its declarations in sequence.
* `Site.report_same`, `Site.reports_same` — reports do not depend on what was bound before.
* `signatures_disturb_nothing` — **signatures leave all typings as they are, and each other too.**
-/

namespace LetTyping

variable {K : Nat → Prop} {f : Nat → Nat} {st st' st₁ : State}

/-! ### Signatures in lockstep -/

/-- A context is resolved in lockstep. -/
theorem resolve_tandem (h : Lockstep K f st st') {defined : Defined}
    (hdef : ∀ e ∈ defined, e.2.All (Over K)) {context : Context} (hc : Uses.All (Over K) context)
    (span : Span) :
    Tandem K f RenamedUses (resolve [] defined span context st)
      (resolve [] (Table.mapValues (Typing.rename f) defined) span
        (Uses.map (Ty.rename f) context) st') := by
  have hcollected : ∀ defined context st, resolve [] defined span context st =
      collected (resolveNames defined span defined.length [] context [] st) := by
    intro defined context st
    rw [resolve_eq, collected]
    rcases resolveNames _ _ _ _ _ _ _ with ⟨⟨_ | _, out⟩, st₁⟩ <;> rfl
  have hrun := (resolutionRun defined span defined.length [] context [] st).tandem h hdef hc
    Uses.all_nil
  rw [hcollected, hcollected, Table.mapValues, List.length_map, ← Table.mapValues]
  exact hrun

/-- Every scope with the renamed typings of its declarations. -/
def renameScopes (f : Nat → Nat) (scopes : List Defined) : List Defined :=
  scopes.map (Table.mapValues (Typing.rename f))

theorem renameScopes_id (scopes : List Defined) : renameScopes id scopes = scopes := by
  have hscope : ∀ scope : Defined, Table.mapValues (Typing.rename id) scope = scope := by
    intro scope
    rw [Table.mapValues]
    simp only [Typing.rename_id, Prod.mk.eta, List.map_id']
  exact (List.map_congr_left fun scope _ => hscope scope).trans (List.map_id scopes)

/-- A context is resolved through scopes in lockstep, up to a scope that fails. -/
theorem resolveThrough_tandem (span : Span) (scopes : List Defined) {context : Context}
    (h : Lockstep K f st st') (hscopes : ∀ scope ∈ scopes, ∀ e ∈ scope, e.2.All (Over K))
    (hc : Uses.All (Over K) context) :
    Tandem K f (fun _ _ _ _ => True) (resolveThrough span scopes context st)
      (resolveThrough span (renameScopes f scopes) (Uses.map (Ty.rename f) context) st') := by
  induction scopes generalizing K f st st' context with
  | nil => exact .ok (.refl K f) h trivial
  | cons scope scopes ih =>
    rw [List.forall_mem_cons] at hscopes
    have h₁ := resolve_tandem h hscopes.1 hc span
    rw [resolveThrough, renameScopes, List.map_cons, ← renameScopes, resolveThrough,
      Infer.bind_apply, Infer.bind_apply]
    generalize resolve [] scope span context st = x at h₁ ⊢
    generalize resolve [] (Table.mapValues _ scope) span _ st' = x' at h₁ ⊢
    cases h₁ with
    | error hext hlock => exact .error hext hlock
    | ok hext hlock hrest =>
      obtain ⟨hrest, rfl⟩ := hrest
      have h₂ := ih hlock
        (fun scope hs e he => (hscopes.2 scope hs e he).imp fun _ ht => hext.mono ht) hrest
      -- renaming was extended to new variables only, and the scopes have none of them
      have hrename : ∀ scopes : List Defined, (∀ scope ∈ scopes, ∀ e ∈ scope, e.2.All (Over K)) →
          renameScopes _ scopes = renameScopes f scopes := fun scopes hs =>
        List.map_congr_left fun scope hscope => hext.rename_defined (hs scope hscope)
      rw [hrename scopes hscopes.2] at h₂
      exact h₂.extend hext

theorem signature_snd (scopes : List Defined) (span : Span) (name : String) (value : Typing)
    (st : State) :
    (signature scopes span name value st).2.subst = (resolveThrough span scopes
      (instantiate value st).1.context (instantiate value st).2).2.subst := by
  rw [signature_eq]
  rcases resolveThrough _ _ _ _ with ⟨problem | _, st₁⟩ <;> rfl

/-- **Signatures in lockstep are the same.** -/
theorem signature_inStep (h : Lockstep K f st st') {scopes : List Defined}
    (hscopes : ∀ scope ∈ scopes, ∀ e ∈ scope, e.2.All (Over K)) {value value' : Typing}
    (hvalue : value.All (Owns Anywhere st)) (hvalue' : value'.All (Owns Anywhere st'))
    (halike : Alike (value.apply st.subst) (value'.apply st'.subst)) (span : Span) (name : String) :
    (signature (renameScopes f scopes) span name value' st').1 =
      (signature scopes span name value st).1 := by
  obtain ⟨K₁, f₁, hext, hlock, hcopy, heq⟩ := h.instantiate hvalue hvalue' halike
  obtain ⟨hty, hcontext, -⟩ := Typing.all_iff.mp hcopy
  have hrun := resolveThrough_tandem span scopes hlock
    (fun scope hs e he => (hscopes scope hs e he).imp fun _ ht => hext.mono ht) hcontext
  have hrename : renameScopes f₁ scopes = renameScopes f scopes :=
    List.map_congr_left fun scope hs => hext.rename_defined (hscopes scope hs)
  rw [hrename] at hrun
  obtain ⟨K₂, f₂, hext₂, hlock₂⟩ := hrun.lockstep
  rw [signature_fst, signature_fst, signature_snd, signature_snd, heq, Typing.rename_ty,
    Typing.rename_context, ← hext₂.rename hty,
    hlock₂.mirrors.apply_rename hlock₂.left.acyclic hlock₂.right.acyclic (hext₂.mono hty)]
  rw [Ty.text_rename hlock₂.mirrors.injOn
    (hlock₂.left.acyclic.ids_apply_subset hlock₂.mirrors.closed (hext₂.mono hty))]

/-! ### Sites -/

/-- A declaration with what its signature is made from. -/
structure Site where
  /-- The declarations around it, innermost first. -/
  scopes : List Defined
  /-- Where it stands. -/
  span : Span
  /-- The declared name. -/
  name : String
  /-- The typing of its value. -/
  value : Typing

/-- The signature of the declaration. -/
def Site.report (d : Site) : StateM State Signature := signature d.scopes d.span d.name d.value

mutual

/-- The declarations of a tree that are reported, given the declarations around it. -/
def Tree.sites (scopes : List Defined) : Tree Mark → List Site
  | .int _ _ | .var _ _ => []
  | .tuple _ elems | .array _ elems => sitesList scopes elems
  | .apply _ f a => sites scopes f ++ sites scopes a
  | .fn _ _ body => sites scopes body
  | .decl m name value =>
    value.label.typing.toList.map (⟨scopes, m.span, name, ·⟩) ++ sites scopes value
  | .assign _ _ value | .ret _ value => sites scopes value
  | .block m stmts =>
    match m.typing with
    | some typing => sitesList (typing.defined :: scopes) stmts
    | none => []
  termination_by structural t => t

/-- The declarations of some trees that are reported. -/
def Tree.sitesList (scopes : List Defined) : List (Tree Mark) → List Site
  | [] => []
  | t :: ts => sites scopes t ++ sitesList scopes ts
  termination_by structural ts => ts

end

@[simp] theorem Tree.sitesList_eq_flatMap (scopes : List Defined) (ts : List (Tree Mark)) :
    sitesList scopes ts = ts.flatMap (sites scopes) := by
  induction ts with
  | nil => rfl
  | cons t ts ih => rw [sitesList, ih, List.flatMap_cons]

theorem signaturesList_eq {ts : List (Tree Mark)}
    (ih : ∀ t ∈ ts, ∀ scopes, signatures scopes t = (t.sites scopes).mapM Site.report)
    (scopes : List Defined) :
    signaturesList scopes ts = (ts.flatMap (Tree.sites scopes)).mapM Site.report := by
  induction ts with
  | nil => rfl
  | cons t ts ihs =>
    rw [List.forall_mem_cons] at ih
    rw [signaturesList, List.flatMap_cons, List.mapM_append, ih.1, ihs ih.2]

/-- **The signatures of a tree are the reports of its declarations, one after another.** -/
theorem signatures_eq (scopes : List Defined) (t : Tree Mark) :
    signatures scopes t = (t.sites scopes).mapM Site.report := by
  induction t using Tree.induction generalizing scopes with
  | int m value | var m name => rfl
  | tuple m elems ih | array m elems ih =>
    rw [signatures, Tree.sites, Tree.sitesList_eq_flatMap]
    exact signaturesList_eq ih scopes
  | apply m fn arg ihf iha => rw [signatures, Tree.sites, List.mapM_append, ihf, iha]
  | fn m params body ih | assign m name body ih => exact ih scopes
  | ret m value ih => exact ih scopes
  | decl m name value ih =>
    rw [signatures, Tree.sites, List.mapM_append, ih]
    cases value.label.typing with
    | none => rfl
    | some T =>
      rw [Option.toList_some, List.map_singleton, List.mapM_cons]
      rfl
  | block m stmts ih =>
    rw [signatures, Tree.sites]
    cases m.typing with
    | none => rfl
    | some T =>
      simp only [Tree.sitesList_eq_flatMap]
      exact signaturesList_eq ih (T.defined :: scopes)

/-- What the signature is made from is over allocated variables. -/
structure Site.Owned (st : State) (d : Site) : Prop where
  scopes : ScopesOwned st d.scopes
  value : d.value.All (Owns Anywhere st)

/-- Inferred trees have sites over allocated variables. -/
theorem Tree.sites_owned {t : Tree Mark} {scopes : List Defined} (ht : t.Owned Anywhere st)
    (hscopes : ScopesOwned st scopes) : ∀ d ∈ t.sites scopes, d.Owned st := by
  induction t using Tree.induction generalizing scopes with
  | int m value | var m name => simp [sites]
  | tuple m elems ih | array m elems ih =>
    rw [sites, sitesList_eq_flatMap, List.forall_mem_flatMap]
    exact fun t hmem => ih t hmem (ht.children t hmem) hscopes
  | apply m fn arg ihf iha =>
    rw [sites, List.forall_mem_append]
    exact ⟨ihf (ht.children fn (by simp [children])) hscopes,
      iha (ht.children arg (by simp [children])) hscopes⟩
  | fn m params body ih | assign m name body ih =>
    exact ih (ht.children body (by simp [children])) hscopes
  | ret m value ih => exact ih (ht.children value (by simp [children])) hscopes
  | decl m name value ih =>
    have hvalue := ht.children value (by simp [children])
    rw [sites, List.forall_mem_append, List.forall_mem_map]
    exact ⟨fun T hT => ⟨hscopes, (marked_iff.mp hvalue).1 T (by simpa using hT)⟩,
      ih hvalue hscopes⟩
  | block m stmts ih =>
    rw [sites]
    cases hT : m.typing with
    | none => simp
    | some T =>
      -- the scope that a block adds is part of the typing that it is labelled with
      have hdefined := (Typing.all_iff.mp ((marked_iff.mp ht).1 T hT)).2.2
      simp only [sitesList_eq_flatMap, List.forall_mem_flatMap]
      exact fun t hmem =>
        ih t hmem (ht.children t hmem) (List.forall_mem_cons.mpr ⟨hdefined, hscopes⟩)

namespace Site

variable {d : Site} {ds : List Site}

theorem Owned.mono (h : d.Owned st) (hle : st.count ≤ st'.count) : d.Owned st' :=
  ⟨h.scopes.mono hle, h.value.imp fun _ ht => ht.mono hle⟩

theorem report_evolves (h : Region Anywhere st) (hd : d.Owned st) :
    Evolves (st.count ≤ ·) st (d.report st).2 :=
  signature_evolves h hd.scopes hd.value d.span d.name

/-- **A report does not depend on what else was allocated and bound.** -/
theorem report_same (h : Region Anywhere st) (hd : d.Owned st)
    (hev : Evolves (st.count ≤ ·) st st') : (d.report st').1 = (d.report st).1 := by
  have hlock := (Lockstep.refl h).evolve h.above.evolves_refl hev
  have hover : ∀ scope ∈ d.scopes, ∀ e ∈ scope, e.2.All (Over (· < st.count)) :=
    fun scope hs e he => (hd.scopes scope hs e he).imp fun _ ht w hw => (ht w hw).2
  have hsame := signature_inStep hlock hover hd.value
    (hd.value.imp fun _ ht => ht.mono hev.count_le) ?_ d.span d.name
  · rwa [renameScopes_id] at hsame
  · rw [hev.apply_typing h hd.value]
    exact .refl _

theorem mapM_report_cons (d : Site) (ds : List Site) (st : State) :
    (d :: ds).mapM report st = ((d.report st).1 :: (ds.mapM report (d.report st).2).1,
      (ds.mapM report (d.report st).2).2) := by
  rw [List.mapM_cons]
  rfl

/-- Reports in sequence are those that would be made first, and bind only variables of their own. -/
theorem reports_same (h : Region Anywhere st) (hds : ∀ d ∈ ds, d.Owned st)
    (hev : Evolves (st.count ≤ ·) st st') :
    (ds.mapM report st').1 = (ds.map fun d => (d.report st).1) ∧
      Evolves (st.count ≤ ·) st (ds.mapM report st').2 := by
  induction ds generalizing st' with
  | nil => exact ⟨rfl, hev⟩
  | cons d ds ih =>
    rw [List.forall_mem_cons] at hds
    have hev₁ := report_evolves hev.region.all (hds.1.mono hev.count_le)
    obtain ⟨hrest, hev₂⟩ := ih hds.2 (hev.step hev₁)
    rw [mapM_report_cons, List.map_cons, report_same h hds.1 hev, hrest]
    exact ⟨rfl, hev₂⟩

end Site

/-- **Signatures leave everything as it is, and each other too.**  After a tree is inferred, and
whatever else was bound since, its signatures leave every binding of a variable that was allocated
before, also where a scope cannot be resolved.  So the type of the tree, its typings and its failed
applications are the same before and after.  Every signature is the one that would be made first,
and is the same whichever declarations are reported before it. -/
theorem signatures_disturb_nothing {t root : Tree Mark} {T : Typing} {st₀ : State}
    (h₀ : Region Anywhere st₀) (ht : t.Owned Anywhere st₀)
    (hinfer : infer t st₀ = ((.ok T, root), st₁)) (hev : Evolves Anywhere st₁ st) {outer : Defined}
    (houter : ∀ e ∈ outer, e.2.All (Owns Anywhere st)) :
    let reported := signatures [outer] root st
    (∀ n < st.count, reported.2.subst[n]? = st.subst[n]?) ∧
      (reported.2.subst.apply T.ty).text = (st.subst.apply T.ty).text ∧
      root.Unaffected st reported.2 ∧ failures reported.2.subst root = failures st.subst root ∧
      reported.1 = (root.sites [outer]).map (fun d => (d.report st).1) ∧
      ∀ before : List Site, (∀ e ∈ before, e ∈ root.sites [outer]) → ∀ d ∈ root.sites [outer],
        (d.report (before.mapM Site.report st).2).1 = (d.report st).1 := by
  intro reported
  obtain ⟨hown, hT⟩ := (infer_evolves t h₀ ht).2 _ h₀ ht
  rw [hinfer] at hown hT
  have hroot : root.Owned Anywhere st := hown.mono hev.count_le
  have hscopes : ScopesOwned st [outer] := fun s hs => by rwa [List.mem_singleton.mp hs]
  -- all sites are over variables that were there when the reports begin
  have hsites := Tree.sites_owned hroot hscopes
  have hreported := signatures_evolves root hev.region hscopes hroot
  have hsame := hroot.unaffected_above hev.region hreported
  refine ⟨fun n hn => hreported.kept n (Nat.not_le.mpr hn), ?_, hsame, failures_unaffected hsame,
    ?_, fun before hbefore d hd => ?_⟩
  · have hty := congrArg Typing.ty (hreported.apply_typing hev.region
      ((hT T rfl).imp fun _ ht => ht.mono hev.count_le))
    rw [Typing.apply, Typing.mapTypes_ty, Typing.apply, Typing.mapTypes_ty] at hty
    exact congrArg Ty.text hty
  · have hstart := (Site.reports_same hev.region hsites hev.region.above.evolves_refl).1
    rwa [← signatures_eq] at hstart
  · exact Site.report_same hev.region (hsites d hd) (Site.reports_same hev.region
      (fun e he => hsites e (hbefore e he)) hev.region.above.evolves_refl).2

/-- Two declarations in terms of each other, which cannot be resolved, and one that can. -/
theorem signatures_disturb_nothing_circle :
    let use (name : String) : Tree Span := .var ⟨0, 0⟩ name
    let circle : Tree Span := .block ⟨0, 0⟩ [
      .decl ⟨1, 2⟩ "f" (.tuple ⟨0, 0⟩ [use "id", use "g"]), .decl ⟨3, 4⟩ "g" (use "f"),
      .decl ⟨5, 6⟩ "id" (.fn ⟨0, 0⟩ ["x"] (use "x"))]
    ∃ T root st, infer circle.unmarked {} = ((.ok T, root), st) ∧
      (signatures [[]] root st).1.map Signature.entry =
        [("f", "((a) -> a, ((b) -> b, c))"), ("g", "((a) -> a, b)"), ("id", "(a) -> a")] ∧
      (∀ n < st.count, (signatures [[]] root st).2.subst[n]? = st.subst[n]?) ∧
      ∀ d ∈ root.sites [[]], ∀ e ∈ root.sites [[]],
        (d.report (e.report st).2).1 = (d.report st).1 := by
  intro use circle
  have hentries : ((infer circle.unmarked {}).1.1.toOption.map fun _ =>
      (signatures [[]] (infer circle.unmarked {}).1.2 (infer circle.unmarked {}).2).1.map
        Signature.entry) =
      some [("f", "((a) -> a, ((b) -> b, c))"), ("g", "((a) -> a, b)"), ("id", "(a) -> a")] := by
    decide +kernel
  rcases hinfer : infer circle.unmarked {} with ⟨⟨problem | T, root⟩, st⟩ <;>
    rw [hinfer] at hentries
  · cases hentries
  have hst := (infer_unmarked_evolves region_start hinfer).1.region.all
  obtain ⟨hkept, -, -, -, -, hsame⟩ := signatures_disturb_nothing region_start
    (Tree.marked_unmarked circle) hinfer hst.evolves_refl (List.forall_mem_nil _)
  refine ⟨T, root, st, rfl, Option.some.inj hentries, hkept, fun d hd e he => ?_⟩
  exact hsame [e] (by simpa using he) d hd

end LetTyping
