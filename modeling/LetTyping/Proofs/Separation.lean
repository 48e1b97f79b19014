import LetTyping.Proofs.Memo
import LetTyping.Proofs.Region
import LetTyping.Proofs.Renaming

/-!
# Nodes side by side

Nodes that stand side by side have no variables in common, whatever was inferred before and in which
order: the inference of a node touches only variables that it allocates, and its typing is over
these and over the variables of nodes below.  So the raw typings of the nodes below can be put
together.

## Main definitions

* `Tree.Unrelated` — the known typings of two trees have no variables in common.
* `Tree.Separate` — the nodes below every node of a tree are unrelated.
* `Grows` — a tree gets further typings over variables of its own.
* `Siblings`, `Passes` — separate trees side by side, and computations that keep them separate.

## Main results

* `Tree.Unrelated.grow` — trees stay unrelated when one of them grows.
* `infer_siblings` — **inference keeps nodes side by side separate.**
* `Siblings.unrelated_typings` — the resolved typings of nodes side by side are unrelated.
-/

namespace LetTyping

variable {Q : Tree Span → Typing → Prop} {K M : Nat → Prop} {st st' st'' : State}
variable {t t' u : Tree Mark} {ts ts' ts'' us : List (Tree Mark)}

/-! ### Unrelated trees -/

/-- The known typings of two trees are over sets of variables that have nothing in common and that
bindings do not leave. -/
def Tree.Unrelated (st : State) (t u : Tree Mark) : Prop :=
  ∃ M N : Nat → Prop, st.subst.ClosedOn M ∧ st.subst.ClosedOn N ∧ t.Owned M st ∧ u.Owned N st ∧
    ∀ n, M n → ¬N n

/-- A tree gets further typings over variables of its own, while only new variables are bound. -/
structure Grows (st : State) (t : Tree Mark) (st' : State) (t' : Tree Mark) : Prop where
  evolves : Evolves (st.count ≤ ·) st st'
  completes : t.Completes t'
  owned : ∀ M, Region M st → t.Owned M st → t'.Owned M st'

namespace Grows

theorem refl (h : Region K st) (t : Tree Mark) : Grows st t st t :=
  ⟨h.above.evolves_refl, .refl t, fun _ _ ht => ht⟩

theorem trans {t'' : Tree Mark} (h : Grows st t st' t') (h' : Grows st' t' st'' t'') :
    Grows st t st'' t'' :=
  ⟨h.evolves.step h'.evolves, h.completes.trans h'.completes, fun M hM ht =>
    h'.owned M (h.evolves.region_of hM) (h.owned M hM ht)⟩

/-- A tree grows when a node within it grows. -/
theorem set {n n' : Tree Mark} (h : Grows st n st' n') {path : List Nat}
    (hpath : t.get? path = some n) : Grows st t st' (t.set n' path) := by
  refine ⟨h.evolves, h.completes.set hpath, fun M hM ht => ?_⟩
  induction hpath using Tree.pathInduction with
  | here => exact h.owned M hM ht
  | below t i c path hi _ ih =>
    have hlt : i < t.children.length := (List.getElem?_eq_some_iff.mp hi).1
    have hold := ht.mono h.evolves.count_le
    rw [Tree.set_cons hi, Tree.Owned, Tree.marked_iff, Tree.label_setChild,
      Tree.children_setChild t hlt]
    refine ⟨(Tree.marked_iff.mp hold).1, fun d hd => ?_⟩
    rcases List.mem_or_eq_of_mem_set hd with hd | rfl
    · exact hold.children d hd
    · exact ih (ht.children c (List.mem_of_getElem? hi))

end Grows

namespace Tree.Unrelated

theorem symm (h : t.Unrelated st u) : u.Unrelated st t := by
  obtain ⟨M, N, hM, hN, ht, hu, hMN⟩ := h
  exact ⟨N, M, hN, hM, hu, ht, fun n hn hm => hMN n hm hn⟩

/-- **Trees stay unrelated when one of them grows.** -/
theorem grow (h : t.Unrelated st u) (hst : Region Anywhere st) (hg : Grows st t st' t') :
    t'.Unrelated st' u := by
  obtain ⟨M, N, hM, hN, ht, hu, hMN⟩ := h
  -- the growing tree takes the new variables, the other one keeps the old
  have hregion : Region (fun n => M n ∨ st.count ≤ n) st := by
    refine ⟨hst.acyclic, hst.allocated, fun n ty hn hb w hw => ?_, fun n hn => Or.inr hn⟩
    rcases hn with hn | hn
    · exact Or.inl (hM n ty hn hb w hw)
    · rw [hst.unbound hn] at hb
      exact absurd hb (by simp)
  refine ⟨fun n => M n ∨ st.count ≤ n, fun n => N n ∧ n < st.count,
    (hg.evolves.region_of hregion).closed, fun n ty hn hb w hw => ?_,
    hg.owned _ hregion (ht.imp fun _ _ hT => hT.imp fun _ hty => hty.weaken fun _ => Or.inl),
    hu.imp fun _ _ hT => hT.imp fun _ hty w hw => ?_, fun n hn hn' => ?_⟩
  · rw [hg.evolves.kept n (Nat.not_le.mpr hn.2)] at hb
    exact ⟨hN n ty hn.1 hb w hw, (hst.allocated n ty hb).2 w hw⟩
  · exact ⟨hty w hw, lt_of_lt_of_le (hty w hw).2 hg.evolves.count_le⟩
  · rcases hn with hn | hn
    · exact hMN n hn hn'.1
    · exact absurd hn'.2 (Nat.not_lt.mpr hn)

/-- Trees stay unrelated when none of their variables is bound. -/
theorem spare (h : t.Unrelated st u) (hev : Evolves K st st') (hK : st.subst.ClosedOn (¬K ·))
    (ht : t.Owned (¬K ·) st) (hu : u.Owned (¬K ·) st) : t.Unrelated st' u := by
  obtain ⟨M, N, hM, hN, ht', hu', hMN⟩ := h
  have hclosed : ∀ {L : Nat → Prop}, st.subst.ClosedOn L →
      st'.subst.ClosedOn fun n => L n ∧ ¬K n := fun hL n ty hn hb w hw => by
    rw [hev.kept n hn.2] at hb
    exact ⟨hL n ty hn.1 hb w hw, hK n ty hn.2 hb w hw⟩
  have howned : ∀ {L : Nat → Prop} {v : Tree Mark}, v.Owned L st → v.Owned (¬K ·) st →
      v.Owned (fun n => L n ∧ ¬K n) st' := fun hL hv n hn T hT ty hty w hw =>
    ⟨⟨(hL n hn T hT ty hty w hw).1, (hv n hn T hT ty hty w hw).1⟩,
      lt_of_lt_of_le (hL n hn T hT ty hty w hw).2 hev.count_le⟩
  exact ⟨_, _, hclosed hM, hclosed hN, howned ht' ht, howned hu' hu,
    fun n hn hn' => hMN n hn.1 hn'.1⟩

/-- Typings of unrelated trees are resolved to unrelated typings. -/
theorem typings (h : t.Unrelated st u) (hst : Region M st) {T U : Typing}
    (hT : t.label.typing = some T) (hU : u.label.typing = some U) :
    LetTyping.Unrelated (T.apply st.subst) (U.apply st.subst) := by
  obtain ⟨M, N, hM, hN, ht, hu, hMN⟩ := h
  have hresolved : ∀ {L : Nat → Prop} {S : Typing}, st.subst.ClosedOn L → S.All (Owns L st) →
      ∀ w ∈ (S.apply st.subst).ids, L w := fun hL hS =>
    Typing.forall_mem_ids.mpr (Typing.all_mapTypes.mpr (hS.imp fun ty hty =>
      hst.acyclic.ids_apply_subset hL fun w hw => (hty w hw).1))
  exact fun n hn hn' => hMN n (hresolved hM ((marked_iff.mp ht).1 T hT) n hn)
    (hresolved hN ((marked_iff.mp hu).1 U hU) n hn')

end Tree.Unrelated

/-! ### Separate trees -/

/-- The nodes below every node of a tree are unrelated, all typings are over allocated variables,
and every node that has a typing has the property `Q` together with the resolved typing. -/
inductive Tree.Separate (Q : Tree Span → Typing → Prop) (st : State) : Tree Mark → Prop
  | mk {t : Tree Mark} : (∀ T, t.label.typing = some T →
        T.All (Owns Anywhere st) ∧ Q t.erase (T.apply st.subst)) →
      t.children.Pairwise (Tree.Unrelated st) → (∀ c ∈ t.children, Tree.Separate Q st c) →
      Tree.Separate Q st t

/-- Separate trees side by side. -/
structure Siblings (Q : Tree Span → Typing → Prop) (st : State) (ts : List (Tree Mark)) : Prop where
  region : Region Anywhere st
  unrelated : ts.Pairwise (Tree.Unrelated st)
  separate : ∀ t ∈ ts, t.Separate Q st

theorem Tree.Separate.siblings (h : t.Separate Q st) (hst : Region Anywhere st) :
    Siblings Q st t.children := by
  cases h with
  | mk _ hpair hall => exact ⟨hst, hpair, hall⟩

theorem Tree.Separate.owned (h : t.Separate Q st) : t.Owned Anywhere st := by
  induction h with
  | mk hroot _ _ ih => exact marked_iff.mpr ⟨fun T hT => (hroot T hT).1, ih⟩

/-- A tree stays separate when none of its variables is bound. -/
theorem Tree.Separate.spare (h : t.Separate Q st) (hs : st.subst.Acyclic) (hev : Evolves K st st')
    (hK : st.subst.ClosedOn (¬K ·)) (ht : t.Owned (¬K ·) st) : t.Separate Q st' := by
  induction h with
  | mk hroot hpair _ ih =>
    refine .mk (fun T hT => ⟨(hroot T hT).1.imp fun _ ht => ht.mono hev.count_le, ?_⟩)
      (hpair.imp_of_mem fun hc hd h => h.spare hev hK (ht.children _ hc) (ht.children _ hd))
      fun c hc => ih c hc (ht.children c hc)
    rw [hev.apply_spared hs hK ((marked_iff.mp ht).1 T hT)]
    exact (hroot T hT).2

namespace Siblings

theorem tail (h : Siblings Q st (t :: ts)) : Siblings Q st ts :=
  ⟨h.region, (List.pairwise_cons.mp h.unrelated).2, (List.forall_mem_cons.mp h.separate).2⟩

theorem spare (h : Siblings Q st ts) (hev : Evolves K st st') (hK : st.subst.ClosedOn (¬K ·))
    (hts : ∀ t ∈ ts, t.Owned (¬K ·) st) : Siblings Q st' ts :=
  ⟨hev.region.all, h.unrelated.imp_of_mem fun ht hu h => h.spare hev hK (hts _ ht) (hts _ hu),
    fun t ht => (h.separate t ht).spare h.region.acyclic hev hK (hts t ht)⟩

/-- Trees stay separate when only new variables are bound. -/
theorem evolve (h : Siblings Q st ts) (hev : Evolves (st.count ≤ ·) st st') : Siblings Q st' ts :=
  h.spare hev h.region.spares fun t ht => (h.separate t ht).owned.imp fun _ _ hT =>
    hT.imp fun _ ht => ht.spared

/-- **The resolved typings of nodes side by side are unrelated.** -/
theorem unrelated_typings (h : Siblings Q st ts) {Ts : List Typing}
    (hTs : ts.map (·.label.typing) = Ts.map some) :
    (Ts.map (Typing.apply st.subst)).Pairwise LetTyping.Unrelated := by
  induction ts generalizing Ts with
  | nil =>
    obtain rfl : Ts = [] := by simpa using hTs.symm
    exact .nil
  | cons t ts ih =>
    cases Ts with
    | nil => exact absurd hTs (by simp)
    | cons T Ts =>
      rw [List.map_cons, List.map_cons, List.cons.injEq] at hTs
      rw [List.map_cons, List.pairwise_cons, List.forall_mem_map]
      -- the first tree is unrelated to each of the others, which have the other typings
      refine ⟨fun U hU => ?_, ih h.tail hTs.2⟩
      obtain ⟨u, hu, hlabel⟩ : ∃ u ∈ ts, u.label.typing = some U := by
        rw [← List.mem_map, hTs.2]
        exact List.mem_map_of_mem hU
      exact ((List.pairwise_cons.mp h.unrelated).1 u hu).typings h.region hTs.1 hlabel

end Siblings

/-- A tree without typings. -/
theorem Tree.separate_unmarked (t : Tree Span) (st : State) : t.unmarked.Separate Q st := by
  have hclosed : st.subst.ClosedOn fun _ => False := fun _ _ hn => hn.elim
  induction t using Tree.childInduction with
  | step t ih =>
    refine .mk (fun T hT => absurd hT (by simp [unmarked])) ?_ ?_
    · rw [unmarked, children_map, List.pairwise_map]
      exact List.pairwise_of_forall fun a b => ⟨_, _, hclosed, hclosed, marked_unmarked a,
        marked_unmarked b, fun _ hn => hn.elim⟩
    · rw [unmarked, children_map, List.forall_mem_map]
      exact ih

/-! ### Computations on trees side by side -/

/-- A computation keeps trees separate, from each other and from all others beside them. -/
def Passes (Q : Tree Span → Typing → Prop) (st : State) (ts : List (Tree Mark)) (st' : State)
    (ts' : List (Tree Mark)) : Prop :=
  ∀ us, Siblings Q st (us ++ ts) → Siblings Q st' (us ++ ts')

theorem siblings_middle : Siblings Q st (us ++ t :: ts) ↔ Siblings Q st (t :: (us ++ ts)) := by
  have hpair : (us ++ t :: ts).Pairwise (Tree.Unrelated st) ↔
      (t :: (us ++ ts)).Pairwise (Tree.Unrelated st) := List.pairwise_middle Tree.Unrelated.symm
  have hmem : (∀ v ∈ us ++ t :: ts, v.Separate Q st) ↔ ∀ v ∈ t :: (us ++ ts), v.Separate Q st := by
    simp only [List.mem_append, List.mem_cons]
    exact forall_congr' fun v => imp_congr_left or_left_comm
  exact ⟨fun h => ⟨h.region, hpair.mp h.unrelated, hmem.mp h.separate⟩,
    fun h => ⟨h.region, hpair.mpr h.unrelated, hmem.mpr h.separate⟩⟩

namespace Passes

theorem trans (h : Passes Q st ts st' ts') (h' : Passes Q st' ts' st'' ts'') :
    Passes Q st ts st'' ts'' := fun us hs => h' us (h us hs)

theorem siblings (h : Passes Q st ts st' ts') (hs : Siblings Q st ts) : Siblings Q st' ts' :=
  h [] hs

/-- A computation on the trees after the first. -/
theorem cons (h : Passes Q st ts st' ts') (t : Tree Mark) :
    Passes Q st (t :: ts) st' (t :: ts') := by
  intro us hs
  rw [List.append_cons] at hs ⊢
  exact h (us ++ [t]) hs

/-- The first tree grows. -/
theorem head (hg : Grows st t st' t') (hsep : t'.Separate Q st') :
    Passes Q st (t :: ts) st' (t' :: ts) := by
  intro us hs
  rw [siblings_middle] at hs ⊢
  have hrest := hs.tail.evolve hg.evolves
  refine ⟨hrest.region, List.pairwise_cons.mpr ⟨fun v hv => ?_, hrest.unrelated⟩,
    List.forall_mem_cons.mpr ⟨hsep, hrest.separate⟩⟩
  exact ((List.pairwise_cons.mp hs.unrelated).1 v hv).grow hs.region hg

/-- A computation that touches no tree. -/
theorem evolve (hev : Evolves (st.count ≤ ·) st st') : Passes Q st ts st' ts :=
  fun _ hs => hs.evolve hev

end Passes

/-! ### Nodes within a tree -/

/-- One of some trees grows. -/
theorem Siblings.set (hs : Siblings Q st ts) {i : Nat} (hi : ts[i]? = some t)
    (hg : Grows st t st' t') (hsep : t'.Separate Q st') : Siblings Q st' (ts.set i t') := by
  obtain ⟨hlt, rfl⟩ := List.getElem?_eq_some_iff.mp hi
  obtain ⟨us, vs, hts, -, hset⟩ := @List.exists_of_set _ i t' ts hlt
  rw [hts] at hs
  rw [hset]
  exact Passes.head hg hsep us hs

namespace Tree.Separate

theorem get? (h : t.Separate Q st) {path : List Nat} (hpath : t.get? path = some u) :
    u.Separate Q st := by
  induction hpath using pathInduction with
  | here => exact h
  | below t i c path hi _ ih =>
    cases h with
    | mk _ _ hall => exact ih (hall c (List.mem_of_getElem? hi))

/-- The known typings are over allocated variables. -/
theorem typing_owns (h : t.Separate Q st) {path : List Nat} {T : Typing}
    (hT : t.typing? path = some T) : T.All (Owns Anywhere st) := by
  obtain ⟨u, hu, hlabel⟩ := Option.bind_eq_some_iff.mp hT
  cases h.get? hu with
  | mk hroot _ _ => exact (hroot T hlabel).1

/-- **A tree stays separate when a node within it grows.** -/
theorem set (h : t.Separate Q st) (hst : Region Anywhere st) {n n' : Tree Mark}
    (hg : Grows st n st' n') (hn : n'.Separate Q st') {path : List Nat}
    (hpath : t.get? path = some n) : (t.set n' path).Separate Q st' := by
  induction hpath using pathInduction with
  | here => exact hn
  | below t i c path hi hc ih =>
    have hlt : i < t.children.length := (List.getElem?_eq_some_iff.mp hi).1
    -- the tree as a whole grows as the node does
    have hset := hg.set (Tree.get?_below hi hc)
    cases h with
    | mk hroot hpair hall =>
      have hc' := ih (hall c (List.mem_of_getElem? hi))
      -- the child that holds the node stays apart from its siblings, since it grows into new
      -- variables
      have hs := Siblings.set ⟨hst, hpair, hall⟩ hi (hg.set hc) hc'
      rw [← children_setChild t hlt, ← set_cons hi] at hs
      refine .mk (fun T hT => ?_) hs.unrelated hs.separate
      rw [set_cons hi, label_setChild] at hT
      obtain ⟨hown, hQ⟩ := hroot T hT
      -- the typing of the root is older than what is new, so it is resolved as before
      refine ⟨hown.imp fun _ ht => ht.mono hg.evolves.count_le, ?_⟩
      rw [hset.completes.erase_eq, hg.evolves.apply_typing hst hown]
      exact hQ

end Tree.Separate

/-! ### Inference -/

/-- Inference keeps the tree of a node separate. -/
def Separating (Q : Tree Span → Typing → Prop) (t : Tree Mark) : Prop :=
  ∀ st, Region Anywhere st → t.Separate Q st → (infer t st).1.2.Separate Q (infer t st).2

theorem infer_grows (h : Region Anywhere st) (hown : t.Owned Anywhere st) :
    Grows st t (infer t st).2 (infer t st).1.2 := by
  obtain ⟨hev, hown'⟩ := infer_evolves t h hown
  exact ⟨hev, infer_completes t st, fun M hM ht => (hown' M hM ht).1⟩

/-- The typing that was found is over allocated variables. -/
theorem infer_owns (h : Region Anywhere st) (hown : t.Owned Anywhere st) :
    ∀ T, (infer t st).1.1 = .ok T → T.All (Owns Anywhere (infer t st).2) :=
  ((infer_evolves t h hown).2 Anywhere h hown).2

/-- The first of some trees is inferred. -/
theorem Separating.passes (ht : Separating Q t) (h : Siblings Q st (t :: ts)) :
    Passes Q st (t :: ts) (infer t st).2 ((infer t st).1.2 :: ts) := by
  have hsep := h.separate t List.mem_cons_self
  exact .head (infer_grows h.region hsep.owned) (ht st h.region hsep)

theorem inferAll_passes (ih : ∀ t ∈ ts, Separating Q t) (h : Siblings Q st ts) :
    Passes Q st ts (inferAll ts st).2 (inferAll ts st).1.2 := by
  induction ts generalizing st with
  | nil => exact fun us hs => hs
  | cons t ts ihs =>
    rw [List.forall_mem_cons] at ih
    have h₁ := ih.1.passes h
    rw [inferAll_cons]
    rcases hres : infer t st with ⟨⟨p | T, t'⟩, st₁⟩ <;> rw [hres] at h₁
    · exact h₁
    · exact h₁.trans ((ihs ih.2 (h₁.siblings h).tail).cons t')

theorem inferStatements_passes (ih : ∀ t ∈ ts, Separating Q t) (h : Siblings Q st ts)
    {sofar : Typing} (hsofar : sofar.All (Owns Anywhere st)) :
    Passes Q st ts (inferStatements sofar ts st).2 (inferStatements sofar ts st).1.2 := by
  induction ts generalizing st sofar with
  | nil => exact fun us hs => hs
  | cons t ts ihs =>
    rw [List.forall_mem_cons] at ih
    -- writing to the log binds nothing
    have hev := State.logged_evolves h.region.above (.statement t.kind t.label.span.start)
    have h₀ : Passes Q st (t :: ts) _ (t :: ts) := .evolve hev
    have hs₀ := h₀.siblings h
    have hown := (hs₀.separate t List.mem_cons_self).owned
    have hev₁ := hev.step (infer_grows hs₀.region hown).evolves
    have hraw := infer_owns hs₀.region hown
    have h₁ := h₀.trans (ih.1.passes hs₀)
    rw [inferStatements_cons]
    rcases hres : infer t _ with ⟨⟨p | raw, t'⟩, st₁⟩ <;> rw [hres] at h₁ hev₁ hraw
    · exact h₁
    · have hs₁ := h₁.siblings h
      -- what was collected from earlier statements is over variables that were there then
      have hsofar₁ := hsofar.imp fun _ ht => ht.mono hev₁.count_le
      obtain ⟨hev₂, hok₂⟩ := absorb_evolves hs₁.region hsofar₁ (hraw raw rfl) t'.label.span
      simp only
      rcases habs : absorb sofar t'.label.span raw st₁ with ⟨p | sofar', st₂⟩ <;>
        rw [habs] at hev₂ hok₂
      · exact h₁.trans (.evolve hev₂)
      · have h₂ := h₁.trans (.evolve hev₂)
        -- the remaining statements pass beside the one that has its typing now
        exact h₂.trans ((ihs ih.2 (h₂.siblings h).tail
          (hok₂ Anywhere hs₁.region hsofar₁ sofar' rfl)).cons t')

/-- A function and its argument are inferred, with an instance of the function's typing between. -/
theorem infer_both {fn arg fn' : Tree Mark} {fnRaw : Typing} (hf : Separating Q fn)
    (ha : Separating Q arg) (hs : Siblings Q st [fn, arg])
    (hfn : infer fn st = ((.ok fnRaw, fn'), st')) :
    Siblings Q (infer arg (instantiate fnRaw st').2).2
      [fn', (infer arg (instantiate fnRaw st').2).1.2] := by
  have hown := infer_owns hs.region (hs.separate fn (by simp)).owned
  have h₁ := hf.passes hs
  rw [hfn] at hown h₁
  have hs₁ := h₁.siblings hs
  have hs₂ := hs₁.evolve (instantiate_evolves hs₁.region.above (hown fnRaw rfl)).1
  exact ((ha.passes hs₂.tail).cons fn').siblings hs₂

/-- The typings of a function and its argument are resolved to unrelated typings. -/
theorem infer_both_unrelated {fn arg fn' arg' : Tree Mark} {fnRaw argRaw : Typing}
    (hf : Separating Q fn) (ha : Separating Q arg) (hs : Siblings Q st [fn, arg])
    (hfn : infer fn st = ((.ok fnRaw, fn'), st'))
    (harg : infer arg (instantiate fnRaw st').2 = ((.ok argRaw, arg'), st'')) :
    [fnRaw.apply st''.subst, argRaw.apply st''.subst].Pairwise LetTyping.Unrelated := by
  have h₁ := infer_both hf ha hs hfn
  have hlabel := infer_label fn st
  have hlabel' := infer_label arg (instantiate fnRaw st').2
  rw [harg] at h₁ hlabel'
  rw [hfn] at hlabel
  have hlabels : [fn', arg'].map (·.label.typing) = [fnRaw, argRaw].map some :=
    congrArg₂ (fun a b => [a, b]) hlabel hlabel'
  exact h₁.unrelated_typings hlabels

/-- Between the instance of a function's typing and the application, the argument is inferred.  The
variables of the instance are not touched by that. -/
theorem Region.between {st₀ st₁ st₂ : State} (h : Region Anywhere st₀)
    (hsubst : st₁.subst = st₀.subst) (hev : Evolves (st₁.count ≤ ·) st₁ st₂) :
    Region (fun n => st₀.count ≤ n ∧ n < st₁.count ∨ st₂.count ≤ n) st₂ ∧
      st₂.subst.ClosedOn fun n => ¬(st₀.count ≤ n ∧ n < st₁.count ∨ st₂.count ≤ n) := by
  -- the variables of the instance are unbound
  have hunbound : ∀ n, st₀.count ≤ n ∧ n < st₁.count ∨ st₂.count ≤ n → st₂.subst[n]? = none := by
    rintro n (⟨hge, hlt⟩ | hge)
    · rw [hev.kept n (Nat.not_le.mpr hlt), hsubst, h.unbound hge]
    · exact hev.region.unbound hge
  refine ⟨⟨hev.region.acyclic, hev.region.allocated, fun n ty hn hb => ?_, fun n hn => Or.inr hn⟩,
    fun n ty hn hb w hw => ?_⟩
  · rw [hunbound n hn] at hb
    exact absurd hb (by simp)
  · have hlt := (hev.region.allocated n ty hb).2 w hw
    by_cases hnew : st₁.count ≤ n
    · have := hev.region.closed n ty hnew hb w hw
      omega
    · rw [hev.kept n hnew, hsubst] at hb
      have := (h.allocated n ty hb).2 w hw
      omega

/-- An application binds variables of the two instances and no others. -/
theorem applyTypings_siblings {fn arg arg' : Tree Mark} {fnRaw argRaw : Typing} {st₁ st₂ : State}
    (hs₁ : Siblings Q st₁ [fn, arg]) (hfn : fnRaw.All (Owns Anywhere st₁))
    (hg : Grows (instantiate fnRaw st₁).2 arg st₂ arg') (hs₂ : Siblings Q st₂ [fn, arg'])
    (harg : argRaw.All (Owns Anywhere st₂)) (span : Span) :
    Siblings Q (applyTypings span fnRaw (instantiate fnRaw st₁).1 argRaw (instantiate argRaw st₂).1
      (instantiate argRaw st₂).2).2 [fn, arg'] := by
  obtain ⟨hev₁, -, hcopy, heq⟩ := instantiate_evolves hs₁.region hfn
  obtain ⟨hK, hspare⟩ := hs₁.region.between (by rw [heq]) hg.evolves
  obtain ⟨hev₂, hcopy', -, -⟩ := instantiate_evolves hK harg
  obtain ⟨hev₃, -⟩ := applyTypings_evolves hev₂.region (hcopy.imp fun t ht w hw =>
    ⟨Or.inl (ht w hw), lt_of_lt_of_le (ht w hw).2 (le_trans hg.evolves.count_le hev₂.count_le)⟩)
    hcopy' span fnRaw argRaw
  -- the typings in the argument are over old variables and such as were allocated for it
  let M : Nat → Prop := fun n => n < st₁.count ∨ (instantiate fnRaw st₁).2.count ≤ n
  have hM : Region M (instantiate fnRaw st₁).2 := by
    refine ⟨hev₁.region.acyclic, hev₁.region.allocated, fun n ty _ hb w hw => Or.inl ?_,
      fun n hn => Or.inr hn⟩
    rw [heq] at hb
    exact (hs₁.region.allocated n ty hb).2 w hw
  have hargM : arg.Owned M (instantiate fnRaw st₁).2 :=
    (hs₁.separate arg (by simp)).owned.imp fun _ _ hT => hT.imp fun _ ht w hw =>
      ⟨Or.inl (ht w hw).2, lt_of_lt_of_le (ht w hw).2 hev₁.count_le⟩
  refine hs₂.spare (hev₂.trans hev₃) hspare ?_
  rw [List.forall_mem_cons, List.forall_mem_singleton]
  refine ⟨(hs₁.separate fn (by simp)).owned.imp fun _ _ hT => hT.imp fun _ ht w hw => ?_,
    (hg.owned M hM hargM).imp fun _ _ hT => hT.imp fun _ ht w hw => ?_⟩
  · have hlt := (ht w hw).2
    have hle := le_trans hev₁.count_le hg.evolves.count_le
    exact ⟨by omega, by omega⟩
  · obtain ⟨hw | hw, hlt⟩ := ht w hw
    · exact ⟨by omega, hlt⟩
    · exact ⟨by omega, hlt⟩

/-- **Inference keeps the nodes below a node separate**, if it keeps each of them so. -/
theorem infer_siblings (ih : ∀ c ∈ t.children, Separating Q c) (hs : Siblings Q st t.children) :
    Siblings Q (infer t st).2 (infer t st).1.2.children := by
  induction t using Tree.pendingInduction with
  | known t T hT =>
    rw [infer_known hT]
    exact hs
  | int m value hm =>
    rw [infer_int hm, Tree.children_settle]
    exact hs
  | array m elems hm =>
    rw [infer_array hm]
    exact hs
  | assign m name value hm =>
    rw [infer_assign hm]
    exact hs
  | var m name hm =>
    rw [infer_var hm, Tree.children_settle]
    exact hs.evolve (State.next_evolves hs.region.above)
  | tuple m elems hm _ =>
    have h₁ : Siblings Q (inferAll elems st).2 (inferAll elems st).1.2 :=
      (inferAll_passes ih hs).siblings hs
    rw [infer_tuple hm]
    rcases hres : inferAll elems st with ⟨⟨r, elems'⟩, st₁⟩
    rw [hres] at h₁
    rwa [Tree.children_settle]
  | apply m fn arg hm _ _ =>
    -- function and argument grow one after the other, with a copy made in between
    change Siblings Q st [fn, arg] at hs
    have hf := ih fn (by simp [Tree.children])
    have hfn := infer_owns hs.region (hs.separate fn (by simp)).owned
    have h₁ := (hf.passes hs).siblings hs
    rw [infer_apply hm]
    rcases hres : infer fn st with ⟨⟨p | fnRaw, fn'⟩, st₁⟩ <;> rw [hres] at h₁ hfn
    · exact h₁
    · have hev := (instantiate_evolves h₁.region.above (hfn fnRaw rfl)).1
      have hown := ((h₁.evolve hev).separate arg (by simp)).owned
      have harg := infer_owns hev.region.all hown
      have hgrow := infer_grows hev.region.all hown
      have h₂ := infer_both hf (ih arg (by simp [Tree.children])) hs hres
      simp only
      rcases hres' : infer arg (instantiate fnRaw st₁).2 with ⟨⟨p | argRaw, arg'⟩, st₂⟩ <;>
        rw [hres'] at h₂ hgrow harg
      · exact h₂
      -- the two copies are unified, and these are over variables that no tree mentions
      · have h₃ := applyTypings_siblings h₁ (hfn fnRaw rfl) hgrow h₂ (harg argRaw rfl) m.span
        simp only
        rcases htyping : applyTypings m.span fnRaw _ argRaw _ _ with ⟨typing, st₃⟩
        rw [htyping] at h₃
        rwa [Tree.children_settle]
  | fn m params body hm _ =>
    change Siblings Q st [body] at hs
    have hbody := infer_owns hs.region (hs.separate body (by simp)).owned
    have h₁ := (ih body (by simp [Tree.children])).passes hs
    rw [infer_fn hm]
    rcases hres : infer body st with ⟨⟨p | raw, body'⟩, st₁⟩ <;> rw [hres] at h₁ hbody
    · exact h₁.siblings hs
    -- binding the parameters works on the copy alone
    · have hs₁ := h₁.siblings hs
      obtain ⟨hev₂, hcopy, -, -⟩ := instantiate_evolves hs₁.region.above (hbody raw rfl)
      obtain ⟨hev₃, -⟩ := fnTyping_evolves hev₂.region hcopy m.span params
      simp only
      rcases hty : fnTyping m.span params (instantiate raw st₁).1 (instantiate raw st₁).2 with
        ⟨result, st₂⟩
      rw [hty] at hev₃
      rw [Tree.children_settle]
      exact hs₁.evolve (hev₂.trans hev₃)
  | decl m name value hm _ =>
    have h₁ := ((ih value (by simp [Tree.children])).passes hs).siblings hs
    rw [infer_decl hm]
    rcases hres : infer value st with ⟨⟨r, value'⟩, st₁⟩
    rw [hres] at h₁
    rwa [Tree.children_settle]
  | ret m value hm _ =>
    have h₁ := ((ih value (by simp [Tree.children])).passes hs).siblings hs
    rw [infer_ret hm]
    rcases hres : infer value st with ⟨⟨r, value'⟩, st₁⟩
    rw [hres] at h₁
    rwa [Tree.children_settle]
  | block m stmts hm _ =>
    have h₁ : Siblings Q (inferStatements (.closed .unit) stmts st).2
        (inferStatements (.closed .unit) stmts st).1.2 :=
      (inferStatements_passes ih hs Owns.closed_unit).siblings hs
    rw [infer_block hm]
    rcases hres : inferStatements (.closed .unit) stmts st with ⟨⟨r, stmts'⟩, st₁⟩
    rw [hres] at h₁
    rwa [Tree.children_settle]

/-- A node is kept separate if the nodes below are, and if the typing that is found for it has the
property. -/
theorem separating_of_children (ih : ∀ c ∈ t.children, Separating Q c)
    (hroot : ∀ st, Region Anywhere st → t.Separate Q st → ∀ T, (infer t st).1.1 = .ok T →
      Q t.erase (T.apply (infer t st).2.subst)) : Separating Q t := by
  intro st hst hsep
  have hs := infer_siblings ih (hsep.siblings hst)
  refine .mk (fun T hT => ?_) hs.unrelated hs.separate
  rw [infer_label] at hT
  cases hres : (infer t st).1.1 with
  | error p => exact absurd hT (by simp [hres, Except.toOption])
  | ok T' =>
    obtain rfl : T' = T := by simpa [hres, Except.toOption] using hT
    rw [(infer_completes t st).erase_eq]
    exact ⟨infer_owns hst hsep.owned T' hres, hroot st hst hsep T' hres⟩

/-- **Inference keeps trees separate.** -/
theorem infer_separate (t : Tree Mark) : Separating (fun _ _ => True) t := by
  induction t using Tree.childInduction with
  | step t ih => exact separating_of_children ih fun _ _ _ _ _ => trivial

end LetTyping
