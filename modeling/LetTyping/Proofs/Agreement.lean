import LetTyping.Proofs.Reordering
import LetTyping.Proofs.Reproduction

/-!
# Trees that are inferred alike

Two trees agree if inference finds the same for both, whatever the states: the same problem, or
typings that are equal up to a renaming of variables and up to the order of declared names.  Trees
that are made of trees that agree, in the same way, agree.

The two runs are compared side by side.  What they have found so far is related by one renaming,
which grows with every typing that is found and with every instance that is made.

## Main definitions

* `Similar` — two typings are equal up to a renaming and the order of declared names.
* `Rearranged` — the same for a given renaming of given variables.
* `Agree` — inference finds the same for two trees.
* `StatementsAgree` — the same for the statements of a block, after what came before.

## Main results

* `Lockstep.adopt` — variables that are not related yet may be related in any way.
* `Lockstep.copy` — the instances of similar typings are similar.
* `absorb_agree` — statements are taken in side by side.
* `Agree.tuple`, `Agree.apply`, `Agree.block`, … — **trees made of trees that agree, agree.**
-/

namespace LetTyping

variable {K K' : Nat → Prop} {f f' : Nat → Nat} {st st' : State} {T T' R R' : Typing}

/-! ### Similar typings -/

/-- The second typing is the first one up to a renaming and up to the order of declared names. -/
def Similar (R R' : Typing) : Prop :=
  ∃ f, Set.InjOn f {n | n ∈ R.ids} ∧ Reordered (R.rename f) R'

theorem Alike.similar (h : Alike R R') : Similar R R' := by
  obtain ⟨f, hf, rfl⟩ := h
  exact ⟨f, hf, .refl _⟩

theorem Typing.rename_rename (f g : Nat → Nat) (T : Typing) :
    (T.rename f).rename g = T.rename (g ∘ f) := by
  rw [rename, rename, mapTypes_mapTypes]
  exact mapTypes_congr fun t _ => Term.map_map _ _ t

theorem Similar.decl (h : Similar R R') (name : String) :
    Similar (declTyping name R) (declTyping name R') := by
  obtain ⟨f, hf, hR⟩ := h
  refine ⟨f, hf.mono (Typing.forall_mem_ids.mpr (Typing.all_iff.mpr ⟨?_, Uses.all_nil, ?_⟩)), ?_⟩
  · exact over_con.mpr (by simp)
  · simpa [declTyping] using R.all_mem_ids
  · rw [declTyping, declTyping, Typing.rename_mk]
    exact ⟨rfl, rfl, .cons hR.ty hR.context hR.defined .nil⟩

theorem Similar.trans {R'' : Typing} (h : Similar R R') (h' : Similar R' R'') : Similar R R'' := by
  obtain ⟨f, hf, hR⟩ := h
  obtain ⟨g, hg, hR'⟩ := h'
  have hmem : ∀ n ∈ R.ids, f n ∈ R'.ids := fun n hn => by
    rw [hR.mem_ids, Typing.ids_rename]
    exact List.mem_map_of_mem hn
  refine ⟨g ∘ f, fun m hm n hn heq => hf hm hn (hg (hmem m hm) (hmem n hn) heq), ?_⟩
  rw [← Typing.rename_rename]
  exact (hR.mapTypes _).trans hR'

/-- A typing over the variables in `K`, and its renaming up to the order of declared names. -/
def Rearranged (K : Nat → Prop) (f : Nat → Nat) (T T' : Typing) : Prop :=
  T.All (Over K) ∧ Reordered (T.rename f) T'

theorem Rearranged.extend (h : Rearranged K f T T') (hext : Extends K f K' f') :
    Rearranged K' f' T T' := by
  obtain ⟨hover, heq⟩ := Renamed.extend ⟨h.1, rfl⟩ hext
  exact ⟨hover, heq ▸ h.2⟩

/-- The typing without its declared names. -/
def Typing.bare (T : Typing) : Typing := ⟨T.ty, T.context, []⟩

theorem Typing.All.bare {P : Ty → Prop} (h : T.All P) : T.bare.All P := by
  obtain ⟨hty, hcontext, -⟩ := Typing.all_iff.mp h
  exact Typing.all_iff.mpr ⟨hty, hcontext, List.forall_mem_nil _⟩

/-- Without declared names there is no order. -/
theorem Rearranged.bare (h : Rearranged K f T T') : Renamed K f T.bare T'.bare := by
  obtain ⟨hover, hR⟩ := h
  refine ⟨hover.bare, ?_⟩
  rw [Typing.bare, Typing.bare, hR.ty, hR.context, Typing.rename_mk, Typing.rename_ty,
    Typing.rename_context, Table.mapValues_nil]

theorem Typing.apply_bare (s : Subst) (T : Typing) : T.bare.apply s = (T.apply s).bare := by
  cases T
  rfl

theorem tupleTyping_bare (Ts : List Typing) :
    tupleTyping (Ts.map Typing.bare) = tupleTyping Ts := by
  rw [tupleTyping, tupleTyping, List.map_map, List.foldl_map]
  rfl

namespace Lockstep

/-- What is related stays related when it is resolved. -/
theorem resolved (h : Lockstep K f st st') (hT : Rearranged K f T T') :
    Rearranged K f (T.apply st.subst) (T'.apply st'.subst) := by
  obtain ⟨hover, hR⟩ := hT
  refine ⟨Typing.all_mapTypes.mpr (hover.imp fun t ht => ?_), ?_⟩
  · exact h.left.acyclic.ids_apply_subset h.mirrors.closed ht
  · have heq : (T.apply st.subst).rename f = (T.rename f).apply st'.subst := by
      rw [Typing.rename, Typing.apply, Typing.mapTypes_mapTypes, Typing.rename, Typing.apply,
        Typing.mapTypes_mapTypes]
      exact Typing.mapTypes_congr (hover.imp fun t ht =>
        (h.mirrors.apply_rename h.left.acyclic h.right.acyclic ht).symm)
    rw [heq]
    exact hR.mapTypes _

theorem similar (h : Lockstep K f st st') (hR : Rearranged K f R R') : Similar R R' :=
  ⟨f, h.mirrors.injOn.mono (Typing.forall_mem_ids.mpr hR.1), hR.2⟩

theorem alikeAll (h : Lockstep K f st st') {Rs Rs' : List Typing}
    (hRs : List.Forall₂ (Renamed K f) Rs Rs') : AlikeAll Rs Rs' := by
  have hboth : (∀ R ∈ Rs, R.All (Over K)) ∧ Rs' = Rs.map (Typing.rename f) := by
    induction hRs with
    | nil => exact ⟨List.forall_mem_nil _, rfl⟩
    | cons hR _ ih =>
      exact ⟨List.forall_mem_cons.mpr ⟨hR.1, ih.1⟩, by rw [List.map_cons, hR.2, ih.2]⟩
  exact ⟨f, h.mirrors.injOn.mono fun n ⟨R, hR, hn⟩ => Typing.forall_mem_ids.mpr (hboth.1 R hR) n hn,
    hboth.2⟩

/-- Unbound variables that are not related yet may be related in any way. -/
theorem adopt (h : Lockstep K f st st') {ns : List Nat} {g : Nat → Nat}
    (hg : Set.InjOn g {n | n ∈ ns})
    (hleft : ∀ n ∈ ns, ¬K n ∧ n < st.count ∧ st.subst[n]? = none)
    (hright : ∀ n ∈ ns, (∀ m, K m → f m ≠ g n) ∧ g n < st'.count ∧ st'.subst[g n]? = none) :
    ∃ K' f', Extends K f K' f' ∧ Lockstep K' f' st st' ∧ (∀ n, K' n ↔ K n ∨ n ∈ ns) ∧
      ∀ n ∈ ns, f' n = g n := by
  -- the old relation where there was one, the new one on the variables that are taken in
  let k : Nat → Nat := fun n => if n ∈ ns then g n else f n
  have hnew : ∀ n ∈ ns, k n = g n := fun n hn => if_pos hn
  have hold : ∀ n, K n → k n = f n := fun n hn => if_neg fun hmem => (hleft n hmem).1 hn
  refine ⟨fun n => K n ∨ n ∈ ns, k, fun n hn => ⟨Or.inl hn, hold n hn⟩,
    ⟨h.left, h.right, ⟨?_, ?_, ?_⟩, ?_⟩, fun _ => Iff.rfl, hnew⟩
  -- closed: the new variables are unbound, so no binding leads out of the larger set
  · rintro n t (hn | hn) hb w hw
    · exact Or.inl (h.mirrors.closed n t hn hb w hw)
    · rw [(hleft n hn).2.2] at hb
      cases hb
  -- injective: old images and new ones differ by assumption
  · rintro m (hm | hm) n (hn | hn) heq
    · rw [hold m hm, hold n hn] at heq
      exact h.mirrors.injOn hm hn heq
    · rw [hold m hm, hnew n hn] at heq
      exact absurd heq ((hright n hn).1 m hm)
    · rw [hnew m hm, hold n hn] at heq
      exact absurd heq.symm ((hright m hm).1 n hn)
    · rw [hnew m hm, hnew n hn] at heq
      exact hg hm hn heq
  -- bindings are mirrored: those of old variables were, and new variables have none
  · rintro n (hn | hn)
    · rw [hold n hn, h.mirrors.binding n hn, Option.map_congr fun t ht => ?_]
      exact (Ty.rename_congr fun w hw => hold w (h.mirrors.closed n t hn ht w hw)).symm
    · rw [hnew n hn, (hright n hn).2.2, (hleft n hn).2.2]
      rfl
  -- all variables of the larger set are allocated on their sides
  · rintro n (hn | hn)
    · rw [hold n hn]
      exact h.allocated n hn
    · rw [hnew n hn]
      exact ⟨(hleft n hn).2.1, (hright n hn).2.1⟩

/-- Similar typings of such variables are related from now on. -/
theorem adopt_typing (h : Lockstep K f st st') (hsim : Similar R R')
    (hleft : ∀ n ∈ R.ids, ¬K n ∧ n < st.count ∧ st.subst[n]? = none)
    (hright : ∀ n ∈ R'.ids, (∀ m, K m → f m ≠ n) ∧ n < st'.count ∧ st'.subst[n]? = none) :
    ∃ K' f', Extends K f K' f' ∧ Lockstep K' f' st st' ∧ Rearranged K' f' R R' ∧
      ∀ n, K' n → K n ∨ n ∈ R.ids ∧ f' n ∈ R'.ids := by
  obtain ⟨g, hg, hR⟩ := hsim
  have himage : ∀ n ∈ R.ids, g n ∈ R'.ids := fun n hn => by
    rw [hR.mem_ids, Typing.ids_rename]
    exact List.mem_map_of_mem hn
  obtain ⟨K', f', hext, hlock, hK', hf'⟩ :=
    h.adopt hg hleft fun n hn => hright (g n) (himage n hn)
  refine ⟨K', f', hext, hlock, ⟨Typing.forall_mem_ids.mp fun n hn => (hK' n).mpr (Or.inr hn), ?_⟩,
    fun n hn => ((hK' n).mp hn).imp_right fun hmem => ⟨hmem, hf' n hmem ▸ himage n hmem⟩⟩
  rwa [Typing.rename_congr hf']

/-- Similar typings that two computations have found with variables of their own are related from
now on. -/
theorem adopt_found (h : Lockstep K f st st') {st₁ st₁' : State}
    (hev : Evolves (st.count ≤ ·) st st₁) (hev' : Evolves (st'.count ≤ ·) st' st₁')
    (hT : T.All (Owns (st.count ≤ ·) st₁)) (hT' : T'.All (Owns (st'.count ≤ ·) st₁'))
    (hsim : Similar (T.apply st₁.subst) (T'.apply st₁'.subst)) :
    ∃ K' f', Extends K f K' f' ∧ Lockstep K' f' st₁ st₁' ∧
      Rearranged K' f' (T.apply st₁.subst) (T'.apply st₁'.subst) := by
  have hids : ∀ {st st₁ : State} {T : Typing}, Evolves (st.count ≤ ·) st st₁ →
      T.All (Owns (st.count ≤ ·) st₁) → ∀ n ∈ (T.apply st₁.subst).ids,
        st.count ≤ n ∧ n < st₁.count ∧ st₁.subst[n]? = none := by
    intro st st₁ T hev hT
    refine Typing.forall_mem_ids.mpr (Typing.all_mapTypes.mpr (hT.imp fun t ht w hw => ?_))
    obtain ⟨hge, hlt⟩ := hev.region.owns_apply ht w hw
    exact ⟨hge, hlt, hev.region.acyclic.unbound_of_mem_ids_apply hw⟩
  obtain ⟨K', f', hext, hlock, hR, -⟩ := (h.evolve hev hev').adopt_typing hsim
    (fun n hn => ⟨fun hK => absurd (h.allocated n hK).1 (Nat.not_lt.mpr (hids hev hT n hn).1),
      (hids hev hT n hn).2⟩)
    fun n hn => ⟨fun m hm heq => absurd (h.allocated m hm).2
      (Nat.not_lt.mpr (heq ▸ (hids hev' hT' n hn).1)), (hids hev' hT' n hn).2⟩
  exact ⟨K', f', hext, hlock, hR⟩

end Lockstep

/-! ### Instances -/

/-- **Instances of similar typings are similar.** -/
theorem Similar.instantiate (hsim : Similar (T.apply st.subst) (T'.apply st'.subst))
    (huniform : (T.apply st.subst).Uniform) (h : Region K st) (h' : Region K' st')
    (hT : T.All (Owns Anywhere st)) (hT' : T'.All (Owns Anywhere st')) :
    Similar (LetTyping.instantiate T st).1 (LetTyping.instantiate T' st').1 := by
  obtain ⟨-, -, -, heq⟩ := instantiate_evolves h hT
  obtain ⟨-, -, -, heq'⟩ := instantiate_evolves h' hT'
  rw [heq, heq']
  generalize T.apply st.subst = R at hsim huniform
  generalize T'.apply st'.subst = R' at hsim
  obtain ⟨g, hg, hR⟩ := hsim
  -- an instance numbers variables by their slots, so a slot on one side is taken to the slot of the
  -- same variable on the other side
  obtain ⟨k, -, hk⟩ := R.exists_assignment st.count id fun m => R'.slot st'.count (g m)
  have himage : ∀ n ∈ R.ids, g n ∈ R'.ids := fun n hn => by
    rw [hR.mem_ids, Typing.ids_rename]
    exact List.mem_map_of_mem hn
  refine ⟨k, fun m hm n hn heq => ?_, ?_⟩
  -- slots tell variables apart, and the renaming between the typings does so too
  · obtain ⟨i, hi, rfl⟩ := Typing.ids_renumber hm
    obtain ⟨j, hj, rfl⟩ := Typing.ids_renumber hn
    rw [hk i hi, hk j hj] at heq
    rw [hg hi hj (Typing.slot_inj (himage i hi) heq)]
  · have hsame : (R.renumber st.count).rename k = (R.rename g).rename (R'.slot st'.count) := by
      rw [huniform.renumber, Typing.rename_rename, Typing.rename_rename]
      exact Typing.rename_congr hk
    rw [hsame, (hR.uniform (huniform.rename hg)).renumber]
    exact hR.mapTypes _

/-- Instances of similar typings are related from now on. -/
theorem Lockstep.copy (h : Lockstep K f st st') (hT : T.All (Owns Anywhere st))
    (hT' : T'.All (Owns Anywhere st')) (huniform : (T.apply st.subst).Uniform)
    (hsim : Similar (T.apply st.subst) (T'.apply st'.subst)) :
    ∃ K' f', Extends K f K' f' ∧
      Lockstep K' f' (LetTyping.instantiate T st).2 (LetTyping.instantiate T' st').2 ∧
      Rearranged K' f' (LetTyping.instantiate T st).1 (LetTyping.instantiate T' st').1 := by
  obtain ⟨hev, -, hnew, -⟩ := instantiate_evolves h.left.above hT
  obtain ⟨hev', -, hnew', -⟩ := instantiate_evolves h.right.above hT'
  have hcopies := hsim.instantiate huniform h.left h.right hT hT'
  rw [← h.left.apply_instance hT, ← h.right.apply_instance hT'] at hcopies
  have hfound := h.adopt_found hev hev' hnew hnew' hcopies
  rwa [h.left.apply_instance hT, h.right.apply_instance hT'] at hfound

/-! ### Statements -/

/-- Statements are taken in side by side. -/
theorem absorb_agree (h : Lockstep K f st st') {sofar sofar' : Typing}
    (hsofar : Rearranged K f sofar sofar') (hT : T.All (Owns Anywhere st))
    (hT' : T'.All (Owns Anywhere st')) (huniform : (T.apply st.subst).Uniform)
    (hsim : Similar (T.apply st.subst) (T'.apply st'.subst)) (span : Span) :
    InStep K f Rearranged (absorb sofar span T st) (absorb sofar' span T' st') := by
  obtain ⟨K₁, f₁, hext, hlock, hcopy, hR⟩ := h.copy hT hT' huniform hsim
  obtain ⟨hover, hS⟩ := hsofar.extend hext
  obtain ⟨hty, hcontext, hdefined⟩ := Typing.all_iff.mp hcopy
  obtain ⟨-, hout, hold⟩ := Typing.all_iff.mp hover
  have hdef : ∀ e ∈ Table.insertAll sofar.defined (instantiate T st).1.defined,
      e.2.All (Over K₁) := fun e he => (Table.mem_insertAll he).elim (hold e) (hdefined e)
  have hdef' : ∀ e ∈ Table.mapValues (Typing.rename f₁) (Table.insertAll sofar.defined
      (instantiate T st).1.defined), e.2.All (Owns Anywhere (instantiate T' st').2) := by
    rw [Table.mapValues, List.forall_mem_map]
    exact fun e he => Typing.all_mapTypes.mpr ((hdef e he).imp fun _ ht => hlock.owns_rename ht)
  have hcontext' : Uses.All (Owns Anywhere (instantiate T' st').2)
      (Uses.map (Ty.rename f₁) (instantiate T st).1.context) :=
    Uses.all_map.mpr fun e he t ht => hlock.owns_rename (hcontext e he t ht)
  -- On the right, the names are resolved as if they stood in the order of the left.
  have hsame : Shuffled (Table.mapValues (Typing.rename f₁) (Table.insertAll sofar.defined
      (instantiate T st).1.defined)) (Table.insertAll sofar'.defined
      (instantiate T' st').1.defined) := by
    rw [Table.mapValues_insertAll, ← Typing.rename_defined, ← Typing.rename_defined]
    exact hS.defined.insertAll hR.defined
  have h₁ := (resolutionRun _ span (Table.insertAll sofar.defined
    (instantiate T st).1.defined).length [] _ _ _).inStep hlock hdef hcontext hout
  rw [← (resolutionRun _ _ _ _ _ _ _).reordered hlock.right hdef' hcontext' hsame] at h₁
  have hlength : (Table.insertAll sofar'.defined (instantiate T' st').1.defined).length =
      (Table.insertAll sofar.defined (instantiate T st).1.defined).length := by
    rw [hsame.length_eq, Table.mapValues, List.length_map]
  rw [absorb_collected, absorb_collected, hlength, hR.context, hS.context, hR.ty,
    Typing.rename_context, Typing.rename_context, Typing.rename_ty]
  generalize collected (resolveNames (Table.insertAll sofar.defined _) _ _ _ _ _ _) = x at h₁ ⊢
  generalize collected (resolveNames (Table.insertAll sofar'.defined _) _ _ _ _ _ _) = x' at h₁ ⊢
  cases h₁ with
  | error => exact .error
  | ok hext₂ hlock₂ hR₂ =>
    obtain ⟨hc, rfl⟩ := hR₂
    refine .ok (hext.trans hext₂) hlock₂ ⟨Typing.all_iff.mpr ⟨hext₂.mono hty, hc, fun e he =>
      (hdef e he).imp fun _ ht => hext₂.mono ht⟩, ?_⟩
    rw [Typing.rename_mk, hext₂.rename hty, hext₂.rename_defined hdef]
    exact ⟨rfl, rfl, hsame⟩

/-! ### Trees -/

/-- Two typings in two states are similar once they are resolved. -/
def ResolvedSimilar (T : Typing) (st : State) (T' : Typing) (st' : State) : Prop :=
  Similar (T.apply st.subst) (T'.apply st'.subst)

/-- Inference finds the same for two trees that stand in the same place, whatever the states. -/
structure Agree (n n' : Tree Span) : Prop where
  label : n'.label = n.label
  result : ∀ {st st' : State}, Region Anywhere st → Region Anywhere st' →
    SameOutcome ResolvedSimilar (n.result st) (n'.result st')

/-- After statements with related typings so far, inference finds the same for the statements that
follow. -/
structure StatementsAgree (ns ns' : List (Tree Span)) : Prop where
  result : ∀ {K : Nat → Prop} {f : Nat → Nat} {st st' : State} {sofar sofar' : Typing},
    Lockstep K f st st' → Rearranged K f sofar sofar' →
      InStep K f Rearranged (blockResult sofar ns st) (blockResult sofar' ns' st')

theorem InStep.similar {x x' : Except Problem Typing × State} (h : InStep K f Rearranged x x') :
    SameOutcome ResolvedSimilar x x' := by
  cases h with
  | ok _ hlock hT => exact .ok (hlock.similar (hlock.resolved hT))
  | error => exact .error

theorem SameOutcome.similar {x x' : Except Problem Typing × State}
    (h : SameOutcome ResolvedAlike x x') : SameOutcome ResolvedSimilar x x' := by
  cases h with
  | ok halike => exact .ok halike.similar
  | error => exact .error

namespace Tree

/-- Inference touches only what it allocates, and finds typings over that whose variables have one
tag each. -/
theorem result_evolves (n : Tree Span) (h : Region Anywhere st) :
    Evolves (st.count ≤ ·) st (n.result st).2 ∧ ∀ T, (n.result st).1 = .ok T →
      T.All (Owns (st.count ≤ ·) (n.result st).2) ∧ (T.apply (n.result st).2.subst).Uniform := by
  rcases hn : infer n.unmarked st with ⟨⟨r, t'⟩, st₁⟩
  obtain ⟨hev, hown⟩ := infer_unmarked_evolves h hn
  rw [result_of_infer hn]
  refine ⟨hev, fun T hT => ⟨hown T hT, ?_⟩⟩
  obtain rfl : r = .ok T := hT
  obtain ⟨V, -, hstock, hmade⟩ := infer_madeOf n (h.stock True) hn (Or.inl trivial)
  exact hstock.uniform (hstock.apply_typing hmade)

end Tree

/-- Inference of trees in sequence touches only what it allocates. -/
theorem results_evolves (ns : List (Tree Span)) (h : Region Anywhere st) :
    Evolves (st.count ≤ ·) st (results ns st).2 := by
  refine (inferAll_evolves (ns.map Tree.unmarked) (fun t _ => infer_evolves t) h ?_).1
  rw [List.forall_mem_map]
  exact fun n _ => Tree.marked_unmarked n

/-- What two computations for trees that agree have found. -/
inductive Meets (st st' : State) :
    Except Problem Typing × State → Except Problem Typing × State → Prop
  | ok {T st₁ T' st₁'} : Evolves (st.count ≤ ·) st st₁ → Evolves (st'.count ≤ ·) st' st₁' →
      T.All (Owns (st.count ≤ ·) st₁) → T'.All (Owns (st'.count ≤ ·) st₁') →
      (T.apply st₁.subst).Uniform → ResolvedSimilar T st₁ T' st₁' →
      Meets st st' (.ok T, st₁) (.ok T', st₁')
  | error {problem st₁ st₁'} : Meets st st' (.error problem, st₁) (.error problem, st₁')

namespace Agree

variable {n n' n'' : Tree Span} {ns ns' : List (Tree Span)}

theorem meets (h : Agree n n') (hst : Region Anywhere st) (hst' : Region Anywhere st') :
    Meets st st' (n.result st) (n'.result st') := by
  have hsame := h.result hst hst'
  obtain ⟨hev, hT⟩ := n.result_evolves hst
  obtain ⟨hev', hT'⟩ := n'.result_evolves hst'
  generalize n.result st = x at hsame hev hT ⊢
  generalize n'.result st' = x' at hsame hev' hT' ⊢
  cases hsame with
  | error => exact .error
  | ok hsim => exact .ok hev hev' (hT _ rfl).1 (hT' _ rfl).1 (hT _ rfl).2 hsim

/-- A tree agrees with itself. -/
theorem refl (n : Tree Span) : Agree n n where
  label := rfl
  result := fun hst hst' => (n.result_same hst hst').similar

theorem trans (h : Agree n n') (h' : Agree n' n'') : Agree n n'' where
  label := h'.label.trans h.label
  result := fun {st st'} hst hst' => by
    -- The tree in the middle is inferred from the initial state.
    have hsame := h.result hst region_start
    have hsame' := h'.result region_start hst'
    generalize n.result st = x at hsame ⊢
    generalize n''.result st' = x'' at hsame' ⊢
    generalize n'.result {} = x' at hsame hsame'
    cases hsame with
    | error =>
      cases hsame'
      exact .error
    | ok hsim =>
      cases hsame' with
      | ok hsim' => exact .ok (hsim.trans hsim')

/-! ### Nodes -/

theorem fn (h : Agree n n') (l : Span) (params : List String) :
    Agree (.fn l params n) (.fn l params n') where
  label := rfl
  result := fun {st st'} hst hst' => by
    have hmeets := h.meets hst hst'
    rw [Tree.result_fn, Tree.result_fn, Infer.bind_apply, Infer.bind_apply]
    generalize n.result st = x at hmeets ⊢
    generalize n'.result st' = x' at hmeets ⊢
    cases hmeets with
    | error => exact .error
    | @ok T st₁ T' st₁' hev hev' hT hT' huniform hsim =>
      obtain ⟨K, f, -, hlock, hcopy⟩ := (Lockstep.start hev.region.all hev'.region.all).copy
        (hT.imp fun _ ht => ht.anywhere) (hT'.imp fun _ ht => ht.anywhere) huniform hsim
      simp only [Infer.lift_bind_apply]
      exact (fnTyping_inStep l params hlock hcopy.bare).same.similar

theorem decl (h : Agree n n') (l : Span) (name : String) :
    Agree (.decl l name n) (.decl l name n') where
  label := rfl
  result := fun {st st'} hst hst' => by
    have hsame := h.result hst hst'
    rw [Tree.result_decl, Tree.result_decl, Infer.bind_apply, Infer.bind_apply]
    generalize n.result st = x at hsame ⊢
    generalize n'.result st' = x' at hsame ⊢
    cases hsame with
    | error => exact .error
    | ok hsim =>
      refine .ok ?_
      rw [ResolvedSimilar, apply_declTyping, apply_declTyping]
      exact hsim.decl name

theorem ret (h : Agree n n') (l : Span) : Agree (.ret l n) (.ret l n') where
  label := rfl
  result := fun hst hst' => by
    rw [Tree.result_ret, Tree.result_ret]
    exact h.result hst hst'

theorem array (l : Span) (ns ns' : List (Tree Span)) : Agree (.array l ns) (.array l ns') where
  label := rfl
  result := fun _ _ => by
    rw [Tree.result_array, Tree.result_array]
    exact .error

theorem assign (l : Span) (name : String) (n n' : Tree Span) :
    Agree (.assign l name n) (.assign l name n') where
  label := rfl
  result := fun _ _ => by
    rw [Tree.result_assign, Tree.result_assign]
    exact .error

theorem apply {a a' : Tree Span} (h : Agree n n') (ha : Agree a a') (l : Span) :
    Agree (.apply l n a) (.apply l n' a') where
  label := rfl
  result := fun {st st'} hst hst' => by
    have hmeets := h.meets hst hst'
    rw [Tree.result_apply, Tree.result_apply, Infer.bind_apply, Infer.bind_apply]
    generalize n.result st = x at hmeets ⊢
    generalize n'.result st' = x' at hmeets ⊢
    cases hmeets with
    | error => exact .error
    | @ok F st₁ F' st₁' hev hev' hF hF' huniform hsim =>
      have hF₁ : F.All (Owns Anywhere st₁) := hF.imp fun _ ht => ht.anywhere
      have hF₁' : F'.All (Owns Anywhere st₁') := hF'.imp fun _ ht => ht.anywhere
      -- The mark of a failed application shows the function as it was found, so both what was found
      -- and its instance are tracked.
      obtain ⟨K₁, f₁, -, hlock₁, hfound⟩ :=
        (Lockstep.start hst hst').adopt_found hev hev' hF hF' hsim
      obtain ⟨K₂, f₂, hext₂, hlock₂, hcopy⟩ := hlock₁.copy hF₁ hF₁' huniform hsim
      have hmeets' := ha.meets hlock₂.left hlock₂.right
      simp only [Infer.lift_bind_apply]
      rw [Infer.bind_apply, Infer.bind_apply]
      generalize a.result _ = y at hmeets' ⊢
      generalize a'.result _ = y' at hmeets' ⊢
      cases hmeets' with
      | error => exact .error
      | @ok A st₃ A' st₃' hev₃ hev₃' hA hA' huniform' hsim' =>
        have hA₃ : A.All (Owns Anywhere st₃) := hA.imp fun _ ht => ht.anywhere
        have hA₃' : A'.All (Owns Anywhere st₃') := hA'.imp fun _ ht => ht.anywhere
        obtain ⟨K₃, f₃, hext₃, hlock₃, hfound'⟩ := hlock₂.adopt_found hev₃ hev₃' hA hA' hsim'
        obtain ⟨K₄, f₄, hext₄, hlock₄, hcopy'⟩ := hlock₃.copy hA₃ hA₃' huniform' hsim'
        have hev₄ := (instantiate_evolves hlock₃.left.above hA₃).1
        have hev₄' := (instantiate_evolves hlock₃.right.above hA₃').1
        have hev₁₄ := ((instantiate_evolves hlock₁.left.above hF₁).1.step hev₃).step hev₄
        have hev₁₄' := ((instantiate_evolves hlock₁.right.above hF₁').1.step hev₃').step hev₄'
        have hext₂₄ := hext₃.trans hext₄
        have hraw : AlikeAll [F.bare.apply (instantiate A st₃).2.subst,
              A.bare.apply (instantiate A st₃).2.subst]
            [F'.bare.apply (instantiate A' st₃').2.subst,
              A'.bare.apply (instantiate A' st₃').2.subst] := by
          rw [Typing.apply_bare, Typing.apply_bare, Typing.apply_bare, Typing.apply_bare,
            hev₁₄.apply_typing hlock₁.left hF₁, hev₁₄'.apply_typing hlock₁.right hF₁',
            hev₄.apply_typing hlock₃.left hA₃, hev₄'.apply_typing hlock₃.right hA₃']
          exact hlock₄.alikeAll (.cons (hfound.extend (hext₂.trans hext₂₄)).bare
            (.cons (hfound'.extend hext₄).bare .nil))
        have halike := applyTypings_alike hlock₄ (hcopy.extend hext₂₄).bare hcopy'.bare hraw
          (hF₁.bare.imp fun _ ht => ht.mono hev₁₄.count_le)
          (hF₁'.bare.imp fun _ ht => ht.mono hev₁₄'.count_le)
          (hA₃.bare.imp fun _ ht => ht.mono hev₄.count_le)
          (hA₃'.bare.imp fun _ ht => ht.mono hev₄'.count_le) l
        simp only [Infer.lift_bind_apply, Infer.lift_apply]
        exact .ok halike.similar

/-- Elements of a tuple are found side by side. -/
theorem results (h : List.Forall₂ Agree ns ns') (hlock : Lockstep K f st st') :
    SameOutcome (fun Ts st Ts' st' => ∃ K' f', Extends K f K' f' ∧ Lockstep K' f' st st' ∧
        List.Forall₂ (Rearranged K' f') (Ts.map (Typing.apply st.subst))
          (Ts'.map (Typing.apply st'.subst)))
      (LetTyping.results ns st) (LetTyping.results ns' st') := by
  induction h generalizing K f st st' with
  | nil => exact .ok ⟨K, f, .refl K f, hlock, .nil⟩
  | @cons n n' ns ns' hn _ ih =>
    have hmeets := hn.meets hlock.left hlock.right
    rw [results_cons, results_cons, Infer.bind_apply, Infer.bind_apply]
    generalize n.result st = x at hmeets ⊢
    generalize n'.result st' = x' at hmeets ⊢
    cases hmeets with
    | error => exact .error
    | @ok T st₁ T' st₁' hev hev' hT hT' huniform hsim =>
      -- the variables of the two results are taken into the lockstep before the rest is found
      obtain ⟨K₁, f₁, hext, hlock₁, hfound⟩ := hlock.adopt_found hev hev' hT hT' hsim
      have hrest := ih hlock₁
      have hev₁ := results_evolves ns hlock₁.left
      have hev₁' := results_evolves ns' hlock₁.right
      simp only [Infer.bind_apply]
      generalize LetTyping.results ns st₁ = y at hrest hev₁ ⊢
      generalize LetTyping.results ns' st₁' = y' at hrest hev₁' ⊢
      cases hrest with
      | error => exact .error
      | ok hrest =>
        obtain ⟨K₂, f₂, hext₂, hlock₂, hall⟩ := hrest
        refine .ok ⟨K₂, f₂, hext.trans hext₂, hlock₂, ?_⟩
        -- what is found for the rest leaves the first results as they are
        rw [List.map_cons, List.map_cons,
          hev₁.apply_typing hlock₁.left (hT.imp fun _ ht => ht.anywhere),
          hev₁'.apply_typing hlock₁.right (hT'.imp fun _ ht => ht.anywhere)]
        exact .cons (hfound.extend hext₂) hall

theorem tuple (h : List.Forall₂ Agree ns ns') (l : Span) : Agree (.tuple l ns) (.tuple l ns') where
  label := rfl
  result := fun {st st'} hst hst' => by
    have hall := results h (Lockstep.start hst hst')
    rw [Tree.result_tuple, Tree.result_tuple, Infer.bind_apply, Infer.bind_apply]
    generalize LetTyping.results ns st = x at hall ⊢
    generalize LetTyping.results ns' st' = x' at hall ⊢
    cases hall with
    | error => exact .error
    | @ok Ts _ Ts' _ hall =>
      obtain ⟨K, f, -, hlock, hall⟩ := hall
      refine .ok ?_
      -- a tuple declares nothing, so the order of declarations, which may differ, is dropped
      rw [ResolvedSimilar, apply_tupleTyping, apply_tupleTyping, ← tupleTyping_bare,
        ← tupleTyping_bare (Ts'.map _)]
      refine (hlock.alikeAll ?_).tuple.similar
      rw [List.forall₂_map_left_iff, List.forall₂_map_right_iff]
      exact hall.imp fun _ _ hR => hR.bare

theorem block (h : StatementsAgree ns ns') (l : Span) : Agree (.block l ns) (.block l ns') where
  label := rfl
  result := fun hst hst' => by
    have hunit : Rearranged (fun _ => False) id (.closed .unit) (.closed .unit) :=
      ⟨Typing.all_closed.mpr (over_con.mpr (by simp)), .refl _⟩
    rw [Tree.result_block, Tree.result_block]
    exact (h.result (Lockstep.start hst hst') hunit).similar

end Agree

/-! ### Sequences of statements -/

namespace StatementsAgree

variable {n n' : Tree Span} {ns ns' : List (Tree Span)}

theorem nil : StatementsAgree [] [] where
  result := fun hlock hsofar => .ok (.refl _ _) hlock hsofar

theorem cons (hn : Agree n n') (hns : StatementsAgree ns ns') :
    StatementsAgree (n :: ns) (n' :: ns') where
  result := fun {K f st st' sofar sofar'} hlock hsofar => by
    -- the log entries may differ, and play no part
    have hlock₀ :=
      hlock.logged (.statement n.kind n.label.start) (.statement n'.kind n.label.start)
    have hmeets := hn.meets hlock₀.left hlock₀.right
    rw [blockResult_cons, blockResult_cons, Infer.lift_bind_apply, Infer.lift_bind_apply, record_eq,
      record_eq, hn.label, Infer.bind_apply, Infer.bind_apply]
    generalize n.result _ = x at hmeets ⊢
    generalize n'.result _ = x' at hmeets ⊢
    cases hmeets with
    | error => exact .error
    | @ok T st₁ T' st₁' hev hev' hT hT' huniform hsim =>
      -- the two results are taken in by blocks in lockstep, whatever order their declarations have
      have habsorb := absorb_agree (hlock₀.evolve hev hev') hsofar (hT.imp fun _ ht => ht.anywhere)
        (hT'.imp fun _ ht => ht.anywhere) huniform hsim n.label
      simp only [Infer.bind_apply]
      generalize absorb sofar n.label T st₁ = y at habsorb ⊢
      generalize absorb sofar' n.label T' st₁' = y' at habsorb ⊢
      cases habsorb with
      | error => exact .error
      | ok hext hlock₁ hsofar₁ => exact (hns.result hlock₁ hsofar₁).extend hext

theorem of_forall₂ (h : List.Forall₂ Agree ns ns') : StatementsAgree ns ns' := by
  induction h with
  | nil => exact nil
  | cons hn _ ih => exact cons hn ih

/-- A sequence agrees with itself. -/
theorem refl (ns : List (Tree Span)) : StatementsAgree ns ns :=
  of_forall₂ (List.forall₂_same.mpr fun n _ => .refl n)

/-- What comes first may be the same on both sides. -/
theorem append_left (before : List (Tree Span)) (h : StatementsAgree ns ns') :
    StatementsAgree (before ++ ns) (before ++ ns') := by
  induction before with
  | nil => exact h
  | cons n before ih => exact cons (.refl n) ih

end StatementsAgree

/-! ### Parts of a tree -/

/-- A tree agrees with itself if a child is replaced by one that agrees with it. -/
theorem Agree.setChild {t c c' : Tree Span} {i : Nat} (hi : t.children[i]? = some c)
    (h : Agree c c') : Agree t (t.setChild i c') := by
  obtain ⟨hlt, -⟩ := List.getElem?_eq_some_iff.mp hi
  cases t with
  -- leaves have no child to be replaced
  | int _ _ | var _ _ => exact absurd hlt (by simp [Tree.children])
  | tuple l es => exact .tuple (forall₂_set .refl hi h) l
  -- no array has a typing, so all arrays agree
  | array l es => exact .array l es _
  | block l ss => exact .block (.of_forall₂ (forall₂_set .refl hi h)) l
  | apply l f a =>
    have htwo : i < 2 := hlt
    obtain rfl | rfl : i = 0 ∨ i = 1 := by omega
    · obtain rfl : f = c := Option.some.inj hi
      exact .apply h (.refl a) l
    · obtain rfl : a = c := Option.some.inj hi
      exact .apply (.refl f) h l
  | fn l ps b =>
    obtain rfl : i = 0 := Nat.lt_one_iff.mp hlt
    obtain rfl : b = c := Option.some.inj hi
    exact h.fn l ps
  | decl l x v =>
    obtain rfl : i = 0 := Nat.lt_one_iff.mp hlt
    obtain rfl : v = c := Option.some.inj hi
    exact h.decl l x
  | assign l x v =>
    obtain rfl : i = 0 := Nat.lt_one_iff.mp hlt
    exact .assign l x v c'
  | ret l v =>
    obtain rfl : i = 0 := Nat.lt_one_iff.mp hlt
    obtain rfl : v = c := Option.some.inj hi
    exact h.ret l

/-- **A tree agrees with itself if a part is replaced by one that agrees with it.** -/
theorem Agree.set {t n n' : Tree Span} {path : List Nat} (hpath : t.get? path = some n)
    (h : Agree n n') : Agree t (t.set n' path) := by
  induction hpath using Tree.pathInduction with
  | here => exact h
  | below t i c path hi _ ih =>
    rw [Tree.set_cons hi]
    exact .setChild hi ih

end LetTyping
