import LetTyping.Proofs.Lockstep
import LetTyping.Proofs.Result
import LetTyping.Proofs.Separation

/-!
# Inference gives the same again

What inference finds for a node depends on nothing but the node: neither on the state it starts
with, nor on the typings that are known in the tree already.  The typing is the same up to a
renaming of variables, and a problem is the same problem.

## Main definitions

* `ResolvedAlike` — two typings are equal up to a renaming once they are resolved.
* `SameOutcome` — two results are the same problem, or related results.
* `Standard` — a resolved typing is the one that is found for a node alone.
* `Reproducible` — inference finds for a node what it finds for the node alone.

## Main results

* `inferAll_same`, `inferStatements_inStep` — sequences of nodes.
* `infer_reproducible` — **inference finds for every node what it finds for the node alone.**
-/

namespace LetTyping

variable {K : Nat → Prop} {f : Nat → Nat} {st st₀ : State} {t : Tree Mark} {ts : List (Tree Mark)}

/-! ### The same node, afresh -/

/-- The tree without the typings that are known. -/
def Tree.afresh (t : Tree Mark) : Tree Mark := t.erase.unmarked

theorem Tree.afresh_tuple (m : Mark) (ts : List (Tree Mark)) :
    (Tree.tuple m ts).afresh = .tuple ⟨m.span, none⟩ (ts.map afresh) := by
  rw [afresh, erase_tuple, unmarked_tuple, List.map_map]
  rfl

theorem Tree.afresh_block (m : Mark) (ts : List (Tree Mark)) :
    (Tree.block m ts).afresh = .block ⟨m.span, none⟩ (ts.map afresh) := by
  rw [afresh, erase_block, unmarked_block, List.map_map]
  rfl

theorem Tree.afresh_array (m : Mark) (ts : List (Tree Mark)) :
    (Tree.array m ts).afresh = .array ⟨m.span, none⟩ (ts.map afresh) := by
  rw [afresh, erase, map, mapList_eq_map, unmarked_array, List.map_map]
  rfl

theorem Tree.owned_afresh (t : Tree Mark) : t.afresh.Owned K st := marked_unmarked _

theorem siblings_afresh {Q : Tree Span → Typing → Prop} (h : Region Anywhere st)
    (ts : List (Tree Mark)) : Siblings Q st (ts.map Tree.afresh) := by
  have hclosed : st.subst.ClosedOn fun _ => False := fun _ _ hn => hn.elim
  refine ⟨h, List.pairwise_map.mpr (List.pairwise_of_forall fun a b => ?_), ?_⟩
  · exact ⟨_, _, hclosed, hclosed, a.owned_afresh, b.owned_afresh, fun _ hn => hn.elim⟩
  · rw [List.forall_mem_map]
    exact fun t _ => Tree.separate_unmarked _ st

/-! ### Equal outcomes -/

/-- Two typings in two states are equal up to a renaming once they are resolved. -/
def ResolvedAlike (T : Typing) (st : State) (T' : Typing) (st' : State) : Prop :=
  Alike (T.apply st.subst) (T'.apply st'.subst)

/-- Two results are the same problem, or are related in the states they come with. -/
inductive SameOutcome {α : Type} (R : α → State → α → State → Prop) :
    Except Problem α × State → Except Problem α × State → Prop
  | ok {a st a' st'} : R a st a' st' → SameOutcome R (.ok a, st) (.ok a', st')
  | error {problem st st'} : SameOutcome R (.error problem, st) (.error problem, st')

theorem InStep.same {x x' : Except Problem Typing × State} (h : InStep K f Renamed x x') :
    SameOutcome ResolvedAlike x x' := by
  cases h with
  | ok _ hlock hT => exact .ok (hlock.alike hT)
  | error => exact .error

/-- The result and the state, without the tree that is left behind. -/
def found {α τ : Type} (x : Outcome α τ × State) : Except Problem α × State := (x.1.1, x.2)

@[simp] theorem found_settle (t : Tree Mark) (r : Except Problem Typing) (st : State) :
    found (t.settle r, st) = (r, st) := by
  rw [found, Tree.settle_fst]

/-- The resolved typing is the one that is found for the node alone, whatever the state. -/
def Standard (n : Tree Span) (R : Typing) : Prop :=
  ∀ st₀, Region Anywhere st₀ → ∃ T₀, (infer n.unmarked st₀).1.1 = .ok T₀ ∧
    Alike R (T₀.apply (infer n.unmarked st₀).2.subst)

/-- Inference finds for the node what it finds for the node alone. -/
def Reproducible (t : Tree Mark) : Prop :=
  ∀ st st₀, Region Anywhere st → Region Anywhere st₀ → t.Separate Standard st →
    SameOutcome ResolvedAlike (found (infer t st)) (found (infer t.afresh st₀))

/-- Two runs for the same node, with what is known about both states and typings. -/
inductive Twin (st st₀ : State) :
    Outcome Typing (Tree Mark) × State → Outcome Typing (Tree Mark) × State → Prop
  | ok {T t' st₁ T₀ t₀ st₂} : Evolves (st.count ≤ ·) st st₁ → Evolves (st₀.count ≤ ·) st₀ st₂ →
      T.All (Owns Anywhere st₁) → T₀.All (Owns Anywhere st₂) →
      ResolvedAlike T st₁ T₀ st₂ → t₀.erase = t'.erase →
      Twin st st₀ ((.ok T, t'), st₁) ((.ok T₀, t₀), st₂)
  | error {problem t' st₁ t₀ st₂} :
      Twin st st₀ ((.error problem, t'), st₁) ((.error problem, t₀), st₂)

theorem Reproducible.twin (ht : Reproducible t) (h : Region Anywhere st)
    (h₀ : Region Anywhere st₀) (hsep : t.Separate Standard st) :
    Twin st st₀ (infer t st) (infer t.afresh st₀) := by
  have hsame := ht st st₀ h h₀ hsep
  have hev := (infer_grows h hsep.owned).evolves
  have hev₀ := (infer_grows h₀ t.owned_afresh).evolves
  have hown := infer_owns h hsep.owned
  have hown₀ := infer_owns h₀ t.owned_afresh
  -- inference marks nodes and changes nothing else, so the trees still agree without their marks
  have herase : (infer t.afresh st₀).1.2.erase = (infer t st).1.2.erase := by
    rw [(infer_completes _ _).erase_eq, (infer_completes _ _).erase_eq, Tree.afresh,
      Tree.erase_unmarked]
  -- from here on only what is known of the two runs matters, not how they went
  generalize infer t st = x at hsame hev hown herase ⊢
  generalize infer t.afresh st₀ = x₀ at hsame hev₀ hown₀ herase ⊢
  obtain ⟨⟨r, t'⟩, st₁⟩ := x
  obtain ⟨⟨r₀, t₀⟩, st₂⟩ := x₀
  cases hsame with
  | error => exact .error
  | @ok T _ T₀ _ halike => exact .ok hev hev₀ (hown T rfl) (hown₀ T₀ rfl) halike herase

/-! ### Sequences of nodes -/

/-- Nodes in sequence have typings that are alike one by one, or the same problem. -/
theorem inferAll_same (ih : ∀ t ∈ ts, Reproducible t) (hs : Siblings Standard st ts)
    (h₀ : Region Anywhere st₀) :
    SameOutcome (fun Ts st Ts₀ st₀ => List.Forall₂ (ResolvedAlike · st · st₀) Ts Ts₀)
      (found (inferAll ts st)) (found (inferAll (ts.map Tree.afresh) st₀)) := by
  induction ts generalizing st st₀ with
  | nil => exact .ok .nil
  | cons t ts ihs =>
    rw [List.forall_mem_cons] at ih
    have htwin := ih.1.twin hs.region h₀ (hs.separate t List.mem_cons_self)
    rw [List.map_cons, inferAll_cons, inferAll_cons]
    generalize infer t st = x at htwin ⊢
    generalize infer t.afresh st₀ = x₀ at htwin ⊢
    cases htwin with
    | error => exact .error
    | @ok T t' st₁ T₀ t₀ st₂ hev hev₀ hT hT₀ halike _ =>
      -- the nodes that follow are inferred in states that come from these two
      have hs₁ := hs.tail.evolve hev
      have hrest := ihs ih.2 hs₁ hev₀.region.all
      have hev₁ := (inferAll_evolves ts (fun t _ => infer_evolves t) hs₁.region fun t ht =>
        (hs₁.separate t ht).owned).1
      have hev₂ := (inferAll_evolves (ts.map Tree.afresh) (fun t _ => infer_evolves t)
        hev₀.region.all (by simp [Tree.owned_afresh])).1
      -- what is inferred later leaves the resolved typings of the first node alone
      rw [ResolvedAlike, ← hev₁.apply_typing hs₁.region hT,
        ← hev₂.apply_typing hev₀.region hT₀] at halike
      simp only
      generalize inferAll ts st₁ = y at hrest halike ⊢
      generalize inferAll (ts.map Tree.afresh) st₂ = y₀ at hrest halike ⊢
      obtain ⟨⟨r, ts'⟩, st₃⟩ := y
      obtain ⟨⟨r₀, ts₀⟩, st₄⟩ := y₀
      cases hrest with
      | error => exact .error
      | ok hall => exact .ok (.cons halike hall)

theorem Tree.span_eq_of_erase {t u : Tree Mark} (h : t.erase = u.erase) :
    t.label.span = u.label.span := by
  have hlabel := congrArg Tree.label h
  rwa [erase, label_map, erase, label_map] at hlabel

/-- The statements of a block are taken in in lockstep. -/
theorem inferStatements_inStep (ih : ∀ t ∈ ts, Reproducible t) (hs : Siblings Standard st ts)
    {sofar sofar₀ : Typing} (h : Lockstep K f st st₀) (hsofar : Renamed K f sofar sofar₀) :
    InStep K f Renamed (found (inferStatements sofar ts st))
      (found (inferStatements sofar₀ (ts.map Tree.afresh) st₀)) := by
  induction ts generalizing K f st st₀ sofar sofar₀ with
  | nil => exact .ok (.refl K f) h hsofar
  | cons t ts ihs =>
    rw [List.forall_mem_cons] at ih
    rw [List.map_cons, inferStatements_cons, inferStatements_cons]
    have hs₀ := hs.evolve
      (State.logged_evolves hs.region.above (.statement t.kind t.label.span.start))
    have h₀ := h.logged (.statement t.kind t.label.span.start)
      (.statement t.afresh.kind t.afresh.label.span.start)
    have htwin := ih.1.twin h₀.left h₀.right (hs₀.separate t List.mem_cons_self)
    generalize infer t _ = x at htwin ⊢
    generalize infer t.afresh _ = x₀ at htwin ⊢
    cases htwin with
    | error => exact .error
    | @ok T t' st₁ T₀ t₀ st₂ hev hev₀ hT hT₀ halike herase =>
      -- the other statements stay separate, and what was collected so far stays in lockstep
      have hs₁ := hs₀.tail.evolve hev
      have h₁ := h₀.evolve hev hev₀
      have habs := absorb_inStep h₁ hsofar hT hT₀ halike t'.label.span
      have hev₂ := (absorb_evolves h₁.left (hsofar.1.imp fun _ ht => h₁.owns ht) hT
        t'.label.span).1
      -- both blocks blame a problem on the same span, since the statements differ by marks alone
      simp only [Tree.span_eq_of_erase herase]
      generalize absorb sofar t'.label.span T st₁ = y at habs hev₂ ⊢
      generalize absorb sofar₀ t'.label.span T₀ st₂ = y₀ at habs ⊢
      cases habs with
      | error => exact .error
      | ok hext hlock hsofar' =>
        exact (ihs ih.2 (hs₁.evolve hev₂) hlock hsofar').extend hext

/-! ### Typings that are put together -/

theorem mapTypes_tupleTyping {g : Ty → Ty} (hg : ∀ ts, g (.product ts) = .product (ts.map g))
    (Ts : List Typing) :
    (tupleTyping Ts).mapTypes g = tupleTyping (Ts.map (Typing.mapTypes g)) := by
  rw [tupleTyping, tupleTyping, Typing.mapTypes, hg, Context.mapTypes_eq, Typing.map_foldl_union,
    List.foldl_map, List.foldl_map]
  simp only [List.map_map, Function.comp_def, Typing.mapTypes_ty, Typing.mapTypes_context]
  rfl

/-- Tuples of typings that are alike together are alike. -/
theorem AlikeAll.tuple {Rs Rs' : List Typing} (h : AlikeAll Rs Rs') :
    Alike (tupleTyping Rs) (tupleTyping Rs') := by
  refine h.alike (Typing.forall_mem_ids.mpr ?_) fun f heq => ?_
  · refine tupleTyping_all (fun ts hts => over_con.mpr hts) fun T hT => ?_
    exact T.all_mem_ids.imp fun t ht w hw => ⟨T, hT, ht w hw⟩
  · rw [heq, Typing.rename, mapTypes_tupleTyping (Ty.rename_product f)]
    rfl

theorem apply_declTyping (s : Subst) (name : String) (T : Typing) :
    (declTyping name T).apply s = declTyping name (T.apply s) := by
  rw [declTyping, declTyping, Typing.apply, Typing.mapTypes, Typing.mapDefined_eq_map, Ty.unit,
    Subst.apply_con]
  rfl

theorem apply_tupleTyping (s : Subst) (Ts : List Typing) :
    (tupleTyping Ts).apply s = tupleTyping (Ts.map (Typing.apply s)) :=
  mapTypes_tupleTyping (fun ts => Subst.apply_con s _ ts) Ts

theorem Alike.decl {R R' : Typing} (h : Alike R R') (name : String) :
    Alike (declTyping name R) (declTyping name R') := by
  obtain ⟨f, hf, rfl⟩ := h
  refine ⟨f, hf.mono (Typing.forall_mem_ids.mpr (Typing.all_iff.mpr ⟨?_, Uses.all_nil, ?_⟩)), ?_⟩
  · exact over_con.mpr (by simp)
  · simpa [declTyping] using R.all_mem_ids
  · rw [declTyping, declTyping, Typing.rename_mk]
    rfl

/-- The typings of nodes in sequence are alike together. -/
theorem inferAll_alike (hsep : ∀ t ∈ ts, Separating Standard t) (ih : ∀ t ∈ ts, Reproducible t)
    (hs : Siblings Standard st ts) (h₀ : Region Anywhere st₀) :
    SameOutcome (fun Ts st Ts₀ st₀ => AlikeAll (Ts.map (Typing.apply st.subst))
        (Ts₀.map (Typing.apply st₀.subst)))
      (found (inferAll ts st)) (found (inferAll (ts.map Tree.afresh) st₀)) := by
  have hsame := inferAll_same ih hs h₀
  have hs₀ : Siblings (fun _ _ => True) st₀ (ts.map Tree.afresh) := siblings_afresh h₀ ts
  -- typings that are alike one by one are alike together, because none of them shares a variable
  -- with another; this is what keeping nodes separate is for
  have hs₁ := (inferAll_passes hsep hs).siblings hs
  have hs₂ := (inferAll_passes (fun t _ => infer_separate t) hs₀).siblings hs₀
  have hlabels := fun Ts => @inferAll_labels ts st Ts
  have hlabels₀ := fun Ts => @inferAll_labels (ts.map Tree.afresh) st₀ Ts
  generalize inferAll ts st = x at hsame hs₁ hlabels ⊢
  generalize inferAll (ts.map Tree.afresh) st₀ = x₀ at hsame hs₂ hlabels₀ ⊢
  obtain ⟨⟨r, ts'⟩, st₁⟩ := x
  obtain ⟨⟨r₀, ts₀⟩, st₂⟩ := x₀
  cases hsame with
  | error => exact .error
  | @ok Ts _ Ts₀ _ hall =>
    refine .ok (.of_pairwise ?_ (hs₁.unrelated_typings (hlabels Ts rfl))
      (hs₂.unrelated_typings (hlabels₀ Ts₀ rfl)))
    rw [List.forall₂_map_left_iff, List.forall₂_map_right_iff]
    exact hall

/-! ### Nodes -/

/-- A function applied to its argument. -/
theorem reproducible_apply {m : Mark} {fn arg : Tree Mark} (hm : m.typing = none)
    (hsepf : Separating Standard fn) (hsepa : Separating Standard arg) (ihf : Reproducible fn)
    (iha : Reproducible arg) : Reproducible (.apply m fn arg) := by
  intro st st₀ h h₀ ht
  have hs := ht.siblings h
  change SameOutcome _ _ (found (infer (.apply ⟨m.span, none⟩ fn.afresh arg.afresh) st₀))
  have hs₀ : Siblings (fun _ _ => True) st₀ [fn.afresh, arg.afresh] := siblings_afresh h₀ [fn, arg]
  have htwin := ihf.twin h h₀ (hs.separate fn (by simp [Tree.children]))
  rw [infer_apply hm, infer_apply rfl]
  generalize hres : infer fn st = x at htwin ⊢
  generalize hres₀ : infer fn.afresh st₀ = x₀ at htwin ⊢
  cases htwin with
  | error => exact .error
  | @ok F fn' st₁ F₀ fn₀ st₂ hev hev₀ hF hF₀ halike _ =>
    have hinst := (instantiate_evolves hev.region.all.above hF).1
    have hinst₀ := (instantiate_evolves hev₀.region.all.above hF₀).1
    -- the copies start a lockstep: they are over new variables on both sides
    obtain ⟨K, f, -, hlock, hcopy⟩ :=
      (Lockstep.start hev.region.all hev₀.region.all).instantiate hF hF₀ halike
    have hs₁ := (hs.evolve hev).evolve hinst
    have htwin' := iha.twin hlock.left hlock.right (hs₁.separate arg (by simp [Tree.children]))
    simp only
    generalize hres' : infer arg (instantiate F st₁).2 = y at htwin' ⊢
    generalize hres₀' : infer arg.afresh (instantiate F₀ st₂).2 = y₀ at htwin' ⊢
    cases htwin' with
    | error => exact .error
    | @ok A arg' st₃ A₀ arg₀ st₄ hev' hev₀' hA hA₀ halike' _ =>
      have hlock' := hlock.evolve hev' hev₀'
      obtain ⟨K', f', hext, hlock₁, hcopy'⟩ := hlock'.instantiate hA hA₀ halike'
      -- function and argument are unrelated on both sides, so their typings are alike as a pair
      have hpair := infer_both_unrelated hsepf hsepa hs hres hres'
      have hpair₀ := infer_both_unrelated (infer_separate fn.afresh) (infer_separate arg.afresh)
        hs₀ hres₀ hres₀'
      -- the function was found before the argument, and its typing is resolved as it was then
      have hold := (hinst.step hev').apply_typing hev.region hF
      have hold₀ := (hinst₀.step hev₀').apply_typing hev₀.region hF₀
      rw [ResolvedAlike, ← hold, ← hold₀] at halike
      have hle := (instantiate_evolves hev'.region.all.above hA).1.count_le
      have hle₀ := (instantiate_evolves hev₀'.region.all.above hA₀).1.count_le
      refine .ok (applyTypings_alike hlock₁ (hcopy.extend hext) hcopy'
        (.of_pairwise (.cons halike (.cons halike' .nil)) hpair hpair₀) ?_ ?_ ?_ ?_ m.span)
      · exact hF.imp fun _ ht => ht.mono (hinst.count_le.trans (hev'.count_le.trans hle))
      · exact hF₀.imp fun _ ht => ht.mono (hinst₀.count_le.trans (hev₀'.count_le.trans hle₀))
      · exact hA.imp fun _ ht => ht.mono hle
      · exact hA₀.imp fun _ ht => ht.mono hle₀

/-- A node does the same again if the nodes below do and are kept separate. -/
theorem reproducible_of_children (hsep : ∀ c ∈ t.children, Separating Standard c)
    (ih : ∀ c ∈ t.children, Reproducible c) : Reproducible t := by
  intro st st₀ h h₀ ht
  have hs := ht.siblings h
  induction t using Tree.pendingInduction with
  | known t T hT =>
    -- a typing that is there already was found by a run on the node alone
    cases ht with
    | mk hroot _ _ =>
      obtain ⟨T₀, hT₀, halike⟩ := (hroot T hT).2 st₀ h₀
      rw [infer_known hT]
      change SameOutcome ResolvedAlike (.ok T, st) ((infer t.erase.unmarked st₀).1.1, _)
      rw [hT₀]
      exact .ok halike
  | int m value hm =>
    change SameOutcome _ _ (found (infer (.int ⟨m.span, none⟩ value) st₀))
    have hint : ∀ s : Subst, (Typing.closed .int).apply s = .closed .int := fun s => by
      rw [Typing.apply, Typing.mapTypes_closed, Ty.int, Subst.apply_con, List.map_nil]
    rw [infer_int hm, infer_int rfl, found_settle, found_settle]
    refine .ok ?_
    -- a closed type is resolved to itself, in any state
    rw [ResolvedAlike, hint, hint]
    exact .refl _
  | array m elems hm =>
    rw [Tree.afresh_array, infer_array hm, infer_array rfl]
    exact .error
  | assign m name value hm =>
    change SameOutcome _ _ (found (infer (.assign ⟨m.span, none⟩ name value.afresh) st₀))
    rw [infer_assign hm, infer_assign rfl]
    exact .error
  | var m name hm =>
    change SameOutcome _ _ (found (infer (.var ⟨m.span, none⟩ name) st₀))
    -- one new variable on each side, and the renaming takes the one to the other
    obtain ⟨K, f, -, hlock, hvar, hrename⟩ := (Lockstep.start h h₀).next (some useTag)
    rw [infer_var hm, infer_var rfl, found_settle, found_settle]
    refine .ok (hlock.alike ⟨Typing.all_iff.mpr ⟨hvar, ?_, List.forall_mem_nil _⟩, ?_⟩)
    · simpa [Context.singleton] using hvar
    · rw [Typing.rename_mk, hrename, Context.singleton, Context.singleton, Uses.map_cons,
        List.map_singleton, hrename]
      rfl
  | tuple m elems hm _ =>
    -- one renaming must serve all elements, so they are compared together
    have hall := inferAll_alike hsep ih hs h₀
    rw [Tree.afresh_tuple, infer_tuple hm, infer_tuple rfl]
    simp only [Tree.children] at hall
    generalize inferAll elems st = x at hall ⊢
    generalize inferAll (elems.map Tree.afresh) st₀ = x₀ at hall ⊢
    obtain ⟨⟨r, elems'⟩, st₁⟩ := x
    obtain ⟨⟨r₀, elems₀⟩, st₂⟩ := x₀
    simp only [found_settle]
    cases hall with
    | error => exact .error
    | ok halike =>
      refine .ok ?_
      rw [ResolvedAlike, apply_tupleTyping, apply_tupleTyping]
      exact halike.tuple
  | apply m fn arg hm _ _ =>
    have hfn : fn ∈ (Tree.apply m fn arg).children := by simp [Tree.children]
    have harg : arg ∈ (Tree.apply m fn arg).children := by simp [Tree.children]
    exact reproducible_apply hm (hsep fn hfn) (hsep arg harg) (ih fn hfn) (ih arg harg)
      st st₀ h h₀ ht
  | fn m params body hm _ =>
    change SameOutcome _ _ (found (infer (.fn ⟨m.span, none⟩ params body.afresh) st₀))
    have hbody : body ∈ (Tree.fn m params body).children := by simp [Tree.children]
    have htwin := (ih body hbody).twin h h₀ (hs.separate body hbody)
    rw [infer_fn hm, infer_fn rfl]
    generalize infer body st = x at htwin ⊢
    generalize infer body.afresh st₀ = x₀ at htwin ⊢
    cases htwin with
    | error => exact .error
    | @ok T t' st₁ T₀ t₀ st₂ hev hev₀ hT hT₀ halike _ =>
      -- the parameters are bound in copies, which are over new variables on both sides
      obtain ⟨K, f, -, hlock, hcopy⟩ :=
        (Lockstep.start hev.region.all hev₀.region.all).instantiate hT hT₀ halike
      have hfn := (fnTyping_inStep m.span params hlock hcopy).same
      simp only
      generalize fnTyping m.span params (instantiate T st₁).1 (instantiate T st₁).2 = y at hfn ⊢
      generalize fnTyping m.span params (instantiate T₀ st₂).1 (instantiate T₀ st₂).2 = y₀ at hfn ⊢
      obtain ⟨r, st₃⟩ := y
      obtain ⟨r₀, st₄⟩ := y₀
      simp only [found_settle]
      exact hfn
  | decl m name value hm _ =>
    change SameOutcome _ _ (found (infer (.decl ⟨m.span, none⟩ name value.afresh) st₀))
    have hvalue : value ∈ (Tree.decl m name value).children := by simp [Tree.children]
    have htwin := (ih value hvalue).twin h h₀ (hs.separate value hvalue)
    rw [infer_decl hm, infer_decl rfl]
    generalize infer value st = x at htwin ⊢
    generalize infer value.afresh st₀ = x₀ at htwin ⊢
    cases htwin with
    | error => exact .error
    | ok _ _ _ _ halike _ =>
      refine .ok ?_
      simp only [ResolvedAlike, apply_declTyping]
      exact halike.decl name
  | ret m value hm _ =>
    change SameOutcome _ _ (found (infer (.ret ⟨m.span, none⟩ value.afresh) st₀))
    have hvalue : value ∈ (Tree.ret m value).children := by simp [Tree.children]
    have htwin := (ih value hvalue).twin h h₀ (hs.separate value hvalue)
    rw [infer_ret hm, infer_ret rfl]
    generalize infer value st = x at htwin ⊢
    generalize infer value.afresh st₀ = x₀ at htwin ⊢
    cases htwin with
    | error => exact .error
    | ok _ _ _ _ halike _ => exact .ok halike
  | block m stmts hm _ =>
    have hunit : Renamed (fun _ => False) id (.closed .unit) (.closed .unit) :=
      ⟨Typing.all_closed.mpr (over_con.mpr (by simp)), rfl⟩
    -- a block starts with nothing, and nothing is alike under any renaming
    have hstmts := (inferStatements_inStep ih hs (Lockstep.start h h₀) hunit).same
    rw [Tree.afresh_block, infer_block hm, infer_block rfl]
    simp only [Tree.children] at hstmts
    generalize inferStatements (.closed .unit) stmts st = x at hstmts ⊢
    generalize inferStatements (.closed .unit) (stmts.map Tree.afresh) st₀ = x₀ at hstmts ⊢
    obtain ⟨⟨r, stmts'⟩, st₁⟩ := x
    obtain ⟨⟨r₀, stmts₀⟩, st₂⟩ := x₀
    simp only [found_settle]
    exact hstmts

/-- **Inference finds for every node what it finds for the node alone**, and keeps trees separate
with typings that are found for their nodes alone. -/
theorem infer_reproducible (t : Tree Mark) : Separating Standard t ∧ Reproducible t := by
  induction t using Tree.childInduction with
  | step t ih =>
    have hrep := reproducible_of_children (fun c hc => (ih c hc).1) fun c hc => (ih c hc).2
    refine ⟨separating_of_children (fun c hc => (ih c hc).1) ?_, hrep⟩
    intro st h hsep T hT st₀ h₀
    have hsame := hrep st st₀ h h₀ hsep
    rw [found, hT, Tree.afresh] at hsame
    generalize infer t.erase.unmarked st₀ = x₀ at hsame ⊢
    obtain ⟨⟨r₀, t₀⟩, st₂⟩ := x₀
    cases hsame with
    | ok halike => exact ⟨_, rfl, halike⟩

/-- A tree has the same outcome from every state. -/
theorem Tree.result_same (n : Tree Span) (h : Region Anywhere st) (h' : Region Anywhere st') :
    SameOutcome ResolvedAlike (n.result st) (n.result st') := by
  have hsame := (infer_reproducible n.unmarked).2 st st' h h' (separate_unmarked n st)
  rwa [afresh, erase_unmarked] at hsame

end LetTyping
