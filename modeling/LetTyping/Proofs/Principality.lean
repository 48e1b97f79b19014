import LetTyping.Proofs.Completeness

/-!
# Inferred typings are principal

Inference finds a typing for every node that has a derivation, with no failed application, and all
derivations are instances of the typing found.  Together with soundness, the derivable typings of a
node are exactly the instances of its inferred typing.

## Main definitions

* `Apart` — the variables of a typing's type and context, and those of what it declares, belong to
  different regions.
* `Declares` — the declarations of a typing are general, and are kept apart from its uses.
* `Follows` — inference follows every derivation for a node.

## Main results

* `Apart.copy`, `absorb_apart` — instances and statements keep declarations apart.
* `absorb_settled`, `absorb_declares`, `absorb_complete` — the statements of a block.
* `follows` — **inference follows every derivation.**
* `infer_principal` — **inferred typings are principal, and nothing derivable is refused.**
-/

namespace LetTyping

variable {α V : Type} {ι : V → Instances} {K K' L M : Nat → Prop} {st st' : State} {η : Nat → Plain}

/-- An instance can be given the types that the typing has. -/
theorem instantiate_follows (h : Region K st) {T : Typing} (hT : T.All (Owns Anywhere st))
    (hη : Solves η st.subst) :
    ∃ η', Solves η' (instantiate T st).2.subst ∧ (∀ m < st.count, η' m = η m) ∧
      (instantiate T st).1.ty.eval η' = T.ty.eval η ∧
      Uses.map (Ty.eval η') (instantiate T st).1.context = Uses.map (Ty.eval η) T.context := by
  obtain ⟨η', hη', hagree, hty, hcontext⟩ := instantiate_complete h hT hη η
  rw [Typing.apply, Typing.mapTypes_ty, hη.eval_apply h.acyclic] at hty
  rw [Typing.apply, Typing.mapTypes_context, hη.map_eval_apply h.acyclic] at hcontext
  exact ⟨η', hη', hagree, hty, hcontext⟩

/-! ### Typings that keep their declarations apart -/

/-- The type and the context of a typing are over a region, and what it declares is outside of it.
Bindings lead neither out of the region nor into it. -/
structure Apart (K : Nat → Prop) (st : State) (T : Typing) : Prop where
  region : Region K st
  outside : st.subst.ClosedOn fun n => ¬K n
  split : T.Split (Owns K st) (Owns (¬K ·) st)

namespace Apart

variable {T sofar stmt : Typing}

theorem all (h : Apart K st T) : T.All (Owns Anywhere st) :=
  Typing.all_iff.mpr (h.split.imp (fun _ ht => ht.anywhere) fun _ ht => ht.anywhere)

/-- Typings found before stay as they are. -/
theorem evolve (h : Apart K st T) (hev : Evolves (st.count ≤ ·) st st') : Apart K st' T where
  region := hev.region_of h.region
  outside := fun n t hn hb => h.outside n t hn
    ((hev.kept n fun hle => hn (h.region.fresh n hle)).symm.trans hb)
  split := h.split.imp (fun _ ht => ht.mono hev.count_le) fun _ ht => ht.mono hev.count_le

/-- **An instance keeps its declarations apart** as the typing does. -/
theorem copy (h : Apart K st T) :
    ∃ K', (∀ n, K' n → st.count ≤ n) ∧ Apart K' (instantiate T st).2 (instantiate T st).1 := by
  obtain ⟨hev, -, hnew, heq⟩ := instantiate_evolves h.region h.all
  rcases hinst : instantiate T st with ⟨S, st₁⟩
  rw [hinst] at hev hnew heq
  -- the fresh variables that stand for variables of the region
  let K' : Nat → Prop := fun n => st₁.count ≤ n ∨
    ∃ m ∈ (T.apply st.subst).ids, K m ∧ n = (T.apply st.subst).slot st.count m
  have hge : ∀ n, K' n → st.count ≤ n := by
    rintro n (hn | ⟨m, hm, -, rfl⟩)
    · exact le_trans hev.count_le hn
    · exact (Typing.slot_bounds hm).1
  have hsame : st₁.subst = st.subst := congrArg (State.subst ∘ Prod.snd) heq
  have hold : ∀ n t, st₁.subst[n]? = some t → n < st.count ∧ ∀ w ∈ t.ids, w < st.count := by
    rw [hsame]
    exact h.region.allocated
  refine ⟨K', hge, ⟨hev.region.acyclic, hev.region.allocated, fun n t hn hb => ?_,
    fun n hn => Or.inl hn⟩, fun n t _ hb w hw hK => ?_, ?_⟩
  · exact absurd (hge n hn) (Nat.not_le.mpr (hold n t hb).1)
  · exact absurd (hge w hK) (Nat.not_le.mpr ((hold n t hb).2 w hw))
  · have hresolved : (T.apply st.subst).Split (fun t => ∀ w ∈ t.ids, K w)
        (fun t => ∀ w ∈ t.ids, ¬K w) :=
      Typing.split_mapTypes.mpr (h.split.imp
        (fun t ht w hw => (h.region.owns_apply ht w hw).1)
        fun t ht => h.region.acyclic.ids_apply_subset h.outside fun w hw => (ht w hw).1)
    obtain rfl : S = (T.apply st.subst).renumber st.count := congrArg Prod.fst heq
    refine Typing.split_mapTypes.mpr (((hresolved.and (T.apply st.subst).all_mem_ids).and
      (Typing.all_mapTypes.mp hnew)).imp ?_ ?_)
    · rintro t ⟨⟨hK, hids⟩, hbounds⟩ w hw
      obtain ⟨m, hm, rfl⟩ := Typing.mem_ids_renumber hw
      exact ⟨Or.inr ⟨m, hids m hm, hK m hm, rfl⟩, (hbounds _ hw).2⟩
    · rintro t ⟨⟨hK, hids⟩, hbounds⟩ w hw
      refine ⟨?_, (hbounds w hw).2⟩
      obtain ⟨m, hm, rfl⟩ := Typing.mem_ids_renumber hw
      rintro (hle | ⟨k, hk, hKk, hslot⟩)
      · exact absurd (hbounds _ hw).2 (Nat.not_lt.mpr hle)
      · exact hK m hm (Typing.slot_inj (hids m hm) hslot ▸ hKk)

/-- The declarations so far and those of the next statement's instance are apart from its uses. -/
theorem meet (hsofar : Apart L st sofar) (hstmt : Apart M st stmt) :
    ∃ K, (∀ n, K n → st.count ≤ n) ∧ Apart K (instantiate stmt st).2 (instantiate stmt st).1 ∧
      ∀ e ∈ Table.insertAll sofar.defined (instantiate stmt st).1.defined,
        e.2.All (Owns (¬K ·) (instantiate stmt st).2) := by
  obtain ⟨K, hge, hK⟩ := hstmt.copy
  obtain ⟨hev, -, -, -⟩ := instantiate_evolves hstmt.region hstmt.all
  refine ⟨K, hge, hK, fun e he => ?_⟩
  rcases Table.mem_insertAll he with he | he
  · exact ((Typing.all_iff.mp hsofar.all).2.2 e he).imp fun t ht w hw =>
      ⟨fun hKw => absurd (hge w hKw) (Nat.not_le.mpr (ht w hw).2),
        lt_of_lt_of_le (ht w hw).2 hev.count_le⟩
  · exact hK.split.2.2 e he

end Apart

/-- A region of new variables and one of old variables, side by side. -/
theorem Region.join (hK : Region K st') (hge : ∀ n, K n → st.count ≤ n) (hM : Region M st)
    (houtside : st.subst.ClosedOn fun n => ¬M n)
    (hkept : ∀ n : Nat, ¬K n → st'.subst[n]? = st.subst[n]?) :
    Region (fun n => K n ∨ M n ∧ n < st.count) st' ∧
      st'.subst.ClosedOn fun n => ¬(K n ∨ M n ∧ n < st.count) := by
  refine ⟨⟨hK.acyclic, hK.allocated, fun n t hn hb w hw => ?_, fun n hn => Or.inl (hK.fresh n hn)⟩,
    fun n t hn hb w hw => ?_⟩
  · rcases hn with hn | ⟨hn, hlt⟩
    · exact Or.inl (hK.closed n t hn hb w hw)
    · rw [hkept n fun hKn => absurd (hge n hKn) (Nat.not_le.mpr hlt)] at hb
      exact Or.inr ⟨hM.closed n t hn hb w hw, (hM.allocated n t hb).2 w hw⟩
  · obtain ⟨hnK, hnM⟩ := not_or.mp hn
    rw [hkept n hnK] at hb
    obtain ⟨hlt, hids⟩ := hM.allocated n t hb
    rintro (hw' | ⟨hw', -⟩)
    · exact absurd (hge w hw') (Nat.not_le.mpr (hids w hw))
    · exact houtside n t (fun hMn => hnM ⟨hMn, hlt⟩) hb w hw hw'

/-- A statement keeps declarations apart, and none of them becomes more special while the names it
uses are resolved. -/
theorem absorb_apart {sofar stmt T : Typing} {span : Span} (hL : Apart L st sofar)
    (hM : Apart M st stmt) (hres : absorb sofar span stmt st = (.ok T, st')) :
    (∃ K, Apart K st' T) ∧
      T.defined = Table.insertAll sofar.defined (instantiate stmt st).1.defined ∧
      ∀ e ∈ T.defined, e.2.apply st'.subst = e.2.apply (instantiate stmt st).2.subst := by
  obtain ⟨K, hge, hK, hdef⟩ := hL.meet hM
  obtain ⟨hcopy, -, hnew, hinst⟩ := instantiate_evolves hM.region hM.all
  obtain ⟨result, out, st₁, hrun, heq⟩ := absorb_run sofar span stmt st
  obtain ⟨hev, hout⟩ := hrun.evolves hK.region
    (fun e he => (hdef e he).imp fun _ ht => ht.anywhere) hK.split.2.1
  rw [heq] at hres
  cases result with
  | error problem => cases hres
  | ok _ =>
    cases hres
    have hkept : ∀ n : Nat, ¬K n → st'.subst[n]? = st.subst[n]? := fun n hn => by
      rw [hev.kept n hn, hinst]
    obtain ⟨hregion, houtside⟩ := hev.region.join hge hL.region hL.outside hkept
    refine ⟨⟨_, hregion, houtside, (hK.split.1.mono hev.count_le).weaken fun _ => Or.inl, ?_, ?_⟩,
      rfl, fun e he => hev.apply_spared hK.region.acyclic hK.outside (hdef e he)⟩
    · refine hout _ (fun _ => Or.inl) fun e he t ht w hw => ?_
      obtain ⟨hLw, hlt⟩ := hL.split.2.1 e he t ht w hw
      exact ⟨Or.inr ⟨hLw, hlt⟩, lt_of_lt_of_le hlt hcopy.count_le⟩
    · intro e he t ht w hw
      obtain ⟨hKw, hlt⟩ := hdef e he t ht w hw
      refine ⟨fun hw' => ?_, lt_of_lt_of_le hlt hev.count_le⟩
      obtain ⟨hLw, hlt'⟩ := hw'.resolve_left hKw
      -- an old variable is one of the declarations so far
      rcases Table.mem_insertAll he with he | he
      · exact (hL.split.2.2 e he t ht w hw).1 hLw
      · exact absurd ((Typing.all_iff.mp hnew).2.2 e he t ht w hw).1 (Nat.not_le.mpr hlt')

/-- A statement whose names have instances is taken in, with the types of these instances. -/
theorem absorb_settled {sofar stmt : Typing} {d : Table V} (hL : Apart L st sofar)
    (hM : Apart M st stmt) (hcovered : Covered ι (instantiate stmt st).2
      (Table.insertAll sofar.defined (instantiate stmt st).1.defined) d)
    (hη : Solves η st.subst) (span : Span) {c : Uses Plain}
    (hc : Settles ι d (Uses.map (Ty.eval η) stmt.context) (Uses.map (Ty.eval η) sofar.context) c) :
    ∃ T st' η', absorb sofar span stmt st = (.ok T, st') ∧ Solves η' st'.subst ∧
      (∀ m < st.count, η' m = η m) ∧ c = Uses.map (Ty.eval η') T.context ∧
      T.ty.eval η' = stmt.ty.eval η := by
  -- the statement and what was collected so far are over regions of their own
  obtain ⟨K, -, hK, hdef⟩ := hL.meet hM
  obtain ⟨hcopy, -, -, -⟩ := instantiate_evolves hM.region hM.all
  -- the types are extended to the variables of the instance
  obtain ⟨η₁, hη₁, hagree₁, hty₁, hcontext₁⟩ := instantiate_follows hM.region hM.all hη
  have hsofar₁ : Uses.All (Owns Anywhere st) sofar.context := (Typing.all_iff.mp hL.all).2.1
  rw [← hcontext₁, ← Owns.map_eval_eq hsofar₁ hagree₁] at hc
  obtain ⟨result, out, st₁, hrun, heq⟩ := absorb_run sofar span stmt st
  have hresolving : Resolving ι K _ d _ []
      (instantiate stmt st).1.context sofar.context (instantiate stmt st).2 η₁ :=
    ⟨hK.region, hK.outside, hK.split.2.1, fun e he t ht => (hsofar₁ e he t ht).mono hcopy.count_le,
      hdef, hcovered, ⟨by simp, List.nodup_nil, by simp, Nat.zero_add _⟩, hη₁⟩
  -- so resolving follows the instances that the rules choose
  obtain ⟨rfl, η₂, hη₂, hagree₂, rfl⟩ := hrun.complete hresolving hc
  refine ⟨_, st₁, η₂, heq, hη₂, fun m hm => ?_, rfl, ?_⟩
  · rw [hagree₂ m (lt_of_lt_of_le hm hcopy.count_le), hagree₁ m hm]
  · rw [← hty₁]
    exact hK.split.1.eval_eq hagree₂

/-! ### Declarations that stay general -/

/-- The declarations of a typing are general for the given values, and are kept apart from its
uses. -/
def Declares (st : State) (T : Typing) (d : Table (Tree α)) : Prop :=
  (∃ K, Apart K st T) ∧ GeneralDefined st T.defined d

namespace Declares

variable {T sofar stmt : Typing} {d d' : Table (Tree α)}

/-- A typing that declares nothing. -/
theorem of_nil (h : Region K st) (hT : T.All (Owns K st)) (hnil : T.defined = []) :
    Declares st T ([] : Table (Tree α)) := by
  refine ⟨⟨Anywhere, h.all, fun _ _ hn => absurd trivial hn,
    (Typing.all_iff.mp (hT.imp fun _ ht => ht.anywhere)).imp_right (And.imp_right ?_)⟩, ?_⟩
  · exact fun _ e he => absurd he (by simp [hnil])
  · rw [GeneralDefined, hnil]
    exact .nil

theorem all (h : Declares st T d) : T.All (Owns Anywhere st) := by
  obtain ⟨⟨K, hK⟩, -⟩ := h
  exact hK.all

theorem evolve (h : Declares st T d) (hev : Evolves (st.count ≤ ·) st st') : Declares st' T d := by
  obtain ⟨⟨K, hK⟩, hgen⟩ := h
  refine ⟨⟨K, hK.evolve hev⟩, Table.Rel.imp hgen fun e he v hv => ?_⟩
  rwa [hev.apply_typing hK.region ((Typing.all_iff.mp hK.all).2.2 e he)]

/-- The declarations of an instance are general. -/
theorem copy (h : Declares st T d) : GeneralDefined (instantiate T st).2
    (instantiate T st).1.defined d := by
  obtain ⟨⟨K, hK⟩, hgen⟩ := h
  obtain ⟨-, -, -, heq⟩ := instantiate_evolves hK.region hK.all
  have hids := (Typing.all_iff.mp (T.apply st.subst).all_mem_ids).2.2
  rw [GeneralDefined, heq, Typing.renumber, Typing.mapTypes_defined, Table.Rel.mapValues_iff]
  rw [Typing.apply, Typing.mapTypes_defined, Table.mapValues, List.forall_mem_map] at hids
  conv => arg 2; rw [Typing.apply, Typing.mapTypes_defined]
  rw [Table.Rel.mapValues_iff]
  -- variables are renumbered, and types for the old ones are had from types for the new ones
  refine Table.Rel.imp hgen fun e he v hv => ?_
  rw [Typing.apply, Typing.mapTypes_mapTypes]
  refine hv.mapTypes (hids e he) fun θ => ?_
  obtain ⟨ζ, -, hζ⟩ := (T.apply st.subst).exists_assignment st.count θ θ
  refine ⟨ζ, fun t ht => ?_⟩
  rw [Function.comp_apply, ← hK.region.acyclic.eval_extend, Typing.eval_renumber]
  refine Ty.eval_congr fun m hm => ?_
  rw [Subst.extend_of_unbound, hζ m (ht m hm)]
  exact hK.region.unbound (Typing.slot_bounds (ht m hm)).1

/-- The declarations so far together with those of the next statement's instance. -/
theorem meet (hsofar : Declares st sofar d) (hstmt : Declares st stmt d') :
    GeneralDefined (instantiate stmt st).2
      (Table.insertAll sofar.defined (instantiate stmt st).1.defined) (Table.insertAll d d') := by
  have hcopy := hstmt.copy
  obtain ⟨⟨M, hM⟩, -⟩ := hstmt
  obtain ⟨hev, -, -, -⟩ := instantiate_evolves hM.region.above hM.all
  exact Table.Rel.insertAll (hsofar.evolve hev).2 hcopy

end Declares

/-- A statement's declarations stay general while the names it uses are resolved. -/
theorem absorb_declares {sofar stmt T : Typing} {span : Span} {d d' : Table (Tree α)}
    (hsofar : Declares st sofar d) (hstmt : Declares st stmt d')
    (hres : absorb sofar span stmt st = (.ok T, st')) :
    Declares st' T (Table.insertAll d d') := by
  have hgen := hsofar.meet hstmt
  obtain ⟨⟨L, hL⟩, -⟩ := hsofar
  obtain ⟨⟨M, hM⟩, -⟩ := hstmt
  obtain ⟨hapart, hdefined, hsame⟩ := absorb_apart hL hM hres
  rw [← hdefined] at hgen
  exact ⟨hapart, Table.Rel.imp hgen fun e he v hv => by rwa [hsame e he]⟩

/-- A statement that is followed is taken in, with the types of its derivation. -/
theorem absorb_complete {sofar stmt : Typing} {d d' : Table (Tree α)}
    (hsofar : Declares st sofar d) (hstmt : Declares st stmt d') (hη : Solves η st.subst)
    (span : Span) {c : Uses Plain}
    (hc : Resolves (Table.insertAll d d') (Uses.map (Ty.eval η) stmt.context)
      (Uses.map (Ty.eval η) sofar.context) c) :
    ∃ T st' η', absorb sofar span stmt st = (.ok T, st') ∧ Solves η' st'.subst ∧
      (∀ m < st.count, η' m = η m) ∧ c = Uses.map (Ty.eval η') T.context ∧
      T.ty.eval η' = stmt.ty.eval η := by
  have hgen := hsofar.meet hstmt
  obtain ⟨⟨L, hL⟩, -⟩ := hsofar
  obtain ⟨⟨M, hM⟩, -⟩ := hstmt
  exact absorb_settled hL hM hgen.covered hη span (resolves_iff_settles.mp hc)

/-! ### Nodes -/

section Nodes

/-- A run of inference that follows a derivation: a solution of the bindings before extends to one
of the bindings after, with the types of the derivation. -/
def FollowsRun (st : State) (η : Nat → Plain) (c : Uses Plain) (t : Plain) (T : Typing)
    (st' : State) : Prop :=
  ∃ η', Solves η' st'.subst ∧ (∀ m < st.count, η' m = η m) ∧
    c = Uses.map (Ty.eval η') T.context ∧ t = T.ty.eval η'

/-- Inference of a node follows a derivation, and no application fails. -/
def Followed (n : Tree Span) (st : State) (η : Nat → Plain) (c : Uses Plain) (t : Plain) : Prop :=
  ∃ T t' st', infer n.unmarked st = ((.ok T, t'), st') ∧ t'.Succeeded ∧ FollowsRun st η c t T st'

/-- A node that is no application and keeps its typing. -/
theorem Followed.settle {n : Tree Span} {t : Tree Mark} {c : Uses Plain} {u : Plain} {T : Typing}
    (hres : infer n.unmarked st = (t.settle (.ok T), st')) (h : t.label.typing = none)
    (hroot : t.isApply = false) (hc : ∀ c ∈ t.children, c.Succeeded)
    (hrun : FollowsRun st η c u T st') : Followed n st η c u :=
  ⟨T, _, st', hres, (Tree.succeeded_settle h).mpr ⟨fun hr => absurd hr (by simp [hroot]), hc⟩, hrun⟩

/-- Inference follows every derivation for a node, and what it finds for declared names is
general. -/
structure Follows (n : Tree Span) : Prop where
  follows : ∀ {st η}, Region Anywhere st → Solves η st.subst → ∀ {c t d}, Derives n c t d →
    Followed n st η c t
  declares : ∀ {st}, Region Anywhere st → ∀ {T t' st'},
    infer n.unmarked st = ((.ok T, t'), st') → Declares st' T n.declared

/-- The typing that inference finds is general. -/
theorem Follows.general {n : Tree Span} (h : Follows n) (hst : Region Anywhere st) {T : Typing}
    {t' : Tree Mark} (hres : infer n.unmarked st = ((.ok T, t'), st')) :
    General n (T.apply st'.subst) := by
  obtain ⟨h₁, -⟩ := infer_unmarked_evolves hst hres
  rw [general_iff, Typing.apply, Typing.mapTypes_defined, Table.Rel.mapValues_iff,
    Typing.mapTypes_context, Typing.mapTypes_ty]
  refine ⟨fun c t d hd => ?_, (h.declares hst hres).2⟩
  obtain ⟨T₁, t₁, st₁, hrun, -, η, hη, -, rfl, rfl⟩ :=
    h.follows hst (hst.acyclic.solves_extend fun _ => Plain.unit) hd
  rw [hres] at hrun
  cases hrun
  refine ⟨η, ?_, (hη.eval_apply h₁.region.acyclic _).symm⟩
  rw [hη.map_eval_apply h₁.region.acyclic]

theorem inferAll_follows (ns : List (Tree Span)) (ih : ∀ n ∈ ns, Follows n) :
    ∀ {st η}, Region Anywhere st → Solves η st.subst → ∀ {cs ts}, DerivesAll ns cs ts →
      ∃ Ts ts' st' η', inferAll (ns.map Tree.unmarked) st = ((.ok Ts, ts'), st') ∧
        (∀ t' ∈ ts', t'.Succeeded) ∧ Solves η' st'.subst ∧ (∀ m < st.count, η' m = η m) ∧
        cs = Ts.map (fun T => Uses.map (Ty.eval η') T.context) ∧
        ts = Ts.map fun T => T.ty.eval η' := by
  induction ns with
  | nil =>
    intro st η _ hη cs ts hd
    cases hd
    exact ⟨[], [], st, η, inferAll_nil st, by simp, hη, fun _ _ => rfl, rfl, rfl⟩
  | cons n ns ihs =>
    intro st η h hη cs ts hd
    rw [List.forall_mem_cons] at ih
    cases hd with
    | cons hn hns =>
      -- the types are extended by the first node and then by the others; old variables keep theirs
      obtain ⟨T, t₁, st₁, hres, hsucc, η₁, hη₁, hagree₁, rfl, rfl⟩ := ih.1.follows h hη hn
      obtain ⟨h₁, hT⟩ := infer_unmarked_evolves h hres
      obtain ⟨hty, hcontext, -⟩ := Typing.all_iff.mp (hT T rfl)
      obtain ⟨Ts, ts', st₂, η₂, hress, hsuccs, hη₂, hagree₂, rfl, rfl⟩ :=
        ihs ih.2 (h₁.region_of h) hη₁ hns
      refine ⟨T :: Ts, t₁ :: ts', st₂, η₂, ?_, List.forall_mem_cons.mpr ⟨hsucc, hsuccs⟩, hη₂,
        fun m hm => ?_, ?_, ?_⟩
      · rw [List.map_cons, inferAll_cons, hres]
        simp only [hress, Except.map]
      · rw [hagree₂ m (lt_of_lt_of_le hm h₁.count_le), hagree₁ m hm]
      -- what was found for the first node means the same under the types at the end
      · rw [List.map_cons, Owns.map_eval_eq hcontext hagree₂]
      · rw [List.map_cons, hty.eval_eq hagree₂]

theorem inferStatements_follows (ns : List (Tree Span)) (ih : ∀ n ∈ ns, Follows n) :
    ∀ {sofar st η} {d : Table (Tree Span)}, Region Anywhere st → Declares st sofar d →
      Solves η st.subst → ∀ {c t d'}, DerivesStatements ns (Uses.map (Ty.eval η) sofar.context)
        (sofar.ty.eval η) d c t d' →
      ∃ T ts' st', inferStatements sofar (ns.map Tree.unmarked) st = ((.ok T, ts'), st') ∧
        (∀ t' ∈ ts', t'.Succeeded) ∧ FollowsRun st η c t T st' := by
  induction ns with
  | nil =>
    intro sofar st η d _ _ hη c t d' hd
    cases hd
    exact ⟨sofar, [], st, inferStatements_nil sofar st, by simp, η, hη, fun _ _ => rfl, rfl, rfl⟩
  | cons n ns ihs =>
    intro sofar st η d h hsofar hη c t d' hd
    rw [List.forall_mem_cons] at ih
    cases hd with
    | cons hn hc hns =>
      have h₀ := State.logged_evolves h.above
        (.statement n.unmarked.kind n.unmarked.label.span.start)
      -- the statement takes the types of its derivation
      obtain ⟨raw, t₁, st₁, hres, hsucc, η₁, hη₁, hagree₁, rfl, rfl⟩ :=
        ih.1.follows (h₀.region_of h) hη hn
      obtain ⟨h₁, -⟩ := infer_unmarked_evolves (h₀.region_of h) hres
      replace h₁ := h₀.step h₁
      obtain rfl := hn.declared_eq
      have hraw := ih.1.declares (h₀.region_of h) hres
      have hsofar₁ := hsofar.evolve h₁
      obtain ⟨⟨K, hK⟩, -⟩ := hsofar
      -- the uses so far are over variables that were there before
      rw [← Owns.map_eval_eq (Typing.all_iff.mp hK.all).2.1 hagree₁] at hc
      obtain ⟨sofar', st₂, η₂, habs, hη₂, hagree₂, rfl, hty₂⟩ :=
        absorb_complete hsofar₁ hraw hη₁ t₁.label.span hc
      rw [← hty₂] at hns
      obtain ⟨h₂, -⟩ := absorb_evolves (h₁.region_of h) (hsofar₁.all) hraw.all t₁.label.span
      rw [habs] at h₂
      have h₁₂ := h₁.step h₂
      -- the derivation of the others goes on from what was taken in
      obtain ⟨T, ts', st₃, hress, hsuccs, η₃, hη₃, hagree₃, rfl, rfl⟩ :=
        ihs ih.2 (h₁₂.region_of h) (absorb_declares hsofar₁ hraw habs) hη₂ hns
      refine ⟨T, t₁ :: ts', st₃, ?_, List.forall_mem_cons.mpr ⟨hsucc, hsuccs⟩, η₃, hη₃,
        fun m hm => ?_, rfl, rfl⟩
      · rw [List.map_cons, inferStatements_cons, hres]
        simp only [habs, hress]
      · have hm₁ := lt_of_lt_of_le hm h₁.count_le
        rw [hagree₃ m (lt_of_lt_of_le hm₁ h₂.count_le), hagree₂ m hm₁, hagree₁ m hm]

theorem inferStatements_declares (ns : List (Tree Span)) (ih : ∀ n ∈ ns, Follows n) :
    ∀ {sofar st} {d : Table (Tree Span)}, Region Anywhere st → Declares st sofar d →
      ∀ {T ts' st'}, inferStatements sofar (ns.map Tree.unmarked) st = ((.ok T, ts'), st') →
      Declares st' T (Tree.declaredFrom d ns) := by
  induction ns with
  | nil =>
    intro sofar st d _ hsofar T ts' st' hres
    rw [List.map_nil, inferStatements_nil] at hres
    cases hres
    exact hsofar
  | cons n ns ihs =>
    intro sofar st d h hsofar T ts' st' hres
    rw [List.forall_mem_cons] at ih
    have h₀ := State.logged_evolves h.above
      (.statement n.unmarked.kind n.unmarked.label.span.start)
    obtain ⟨raw, t₁, st₁, sofar', st₂, ts₁, hn, habs, hns, -⟩ := inferStatements_cons_ok hres
    obtain ⟨h₁, -⟩ := infer_unmarked_evolves (h₀.region_of h) hn
    replace h₁ := h₀.step h₁
    -- what was declared before is general still, after the statement is inferred
    have hsofar₁ := hsofar.evolve h₁
    have hraw := ih.1.declares (h₀.region_of h) hn
    obtain ⟨h₂, -⟩ := absorb_evolves (h₁.region_of h) hsofar₁.all hraw.all t₁.label.span
    rw [habs] at h₂
    exact ihs ih.2 ((h₁.step h₂).region_of h) (absorb_declares hsofar₁ hraw habs) hns

/-- A node that declares nothing. -/
theorem Follows.of_undeclared {n : Tree Span} (hn : n.declared = [])
    (hfollows : ∀ {st η}, Region Anywhere st → Solves η st.subst → ∀ {c t d}, Derives n c t d →
      Followed n st η c t)
    (hnil : ∀ {st T t' st'}, infer n.unmarked st = ((.ok T, t'), st') → T.defined = []) :
    Follows n where
  follows := hfollows
  declares := by
    intro st h T t' st' hres
    obtain ⟨h₁, hT⟩ := infer_unmarked_evolves h hres
    rw [hn]
    exact .of_nil h₁.region (hT T rfl) (hnil hres)

/-- An application of a function whose type fits the argument's does not fail. -/
theorem applyTypings_complete {fn arg : Typing} (h : Region K st) (hfn : fn.All (Owns Anywhere st))
    (harg : arg.All (Owns Anywhere st)) (hη : Solves η st.subst) {t : Plain}
    (hty : fn.ty.eval η = Plain.arrow (arg.ty.eval η) t) (span : Span) (fnRaw argRaw : Typing) :
    ∃ T st', applyTypings span fnRaw fn argRaw arg st = (T, st') ∧ T.ty.isFailure = false ∧
      FollowsRun st η (Uses.union (Uses.map (Ty.eval η) fn.context)
        (Uses.map (Ty.eval η) arg.context)) t T st' := by
  obtain ⟨hfty, hfc, -⟩ := Typing.all_iff.mp hfn
  obtain ⟨haty, hac, -⟩ := Typing.all_iff.mp harg
  -- the fresh variable gets the type of the result
  let η' : Nat → Plain := fun m => if m < st.count then η m else t
  have hagree : ∀ m < st.count, η' m = η m := fun m hm => if_pos hm
  have hvar : η' st.count = t := if_neg (lt_irrefl _)
  have hη' : Solves η' st.subst := h.solves_congr hη hagree
  have heq : fn.ty.eval η' = Ty.eval η' (.arrow arg.ty (.var ⟨st.count, none⟩)) := by
    rw [hfty.eval_eq hagree, hty, Ty.eval_arrow, haty.eval_eq hagree, Ty.eval_var, hvar]
  obtain ⟨-, hspec⟩ := unify_spec h.acyclic fn.ty (.arrow arg.ty (.var ⟨st.count, none⟩))
  rw [applyTypings_eq]
  rcases hunify : (unify st.subst fn.ty (.arrow arg.ty (.var ⟨st.count, none⟩))).1 with
    cause | _ <;> rw [hunify] at hspec
  · exact absurd heq (hspec η' hη')
  · refine ⟨_, _, rfl, rfl, η', (hspec η').mpr ⟨hη', heq⟩, hagree, ?_, ?_⟩
    · rw [Context.union_eq, Uses.map_union, Owns.map_eval_eq hfc hagree,
        Owns.map_eval_eq hac hagree]
    · rw [Ty.eval_var, hvar]

/-- A function applied to its argument. -/
theorem follows_apply {l : Span} {fn arg : Tree Span} (ihf : Follows fn) (iha : Follows arg) :
    Follows (.apply l fn arg) := by
  refine .of_undeclared rfl (fun {st η} h hη {c t d} hd => ?_) fun {st T t' st'} hres => ?_
  · cases hd with
    | apply hf ha =>
      obtain ⟨fnRaw, fn', st₁, hfn, hfsucc, η₁, hη₁, hagree₁, rfl, hfty⟩ := ihf.follows h hη hf
      obtain ⟨h₁, hfnRaw⟩ := infer_unmarked_evolves h hfn
      have hfnRaw₁ := (hfnRaw fnRaw rfl).imp fun t ht => ht.anywhere
      obtain ⟨h₂, hcopy, -, -⟩ := instantiate_evolves h₁.region hfnRaw₁
      obtain ⟨η₂, hη₂, hagree₂, hty₂, hctx₂⟩ := instantiate_follows h₁.region hfnRaw₁ hη₁
      have h₁₂ := h₁.trans h₂
      obtain ⟨argRaw, arg', st₃, harg, hasucc, η₃, hη₃, hagree₃, rfl, rfl⟩ :=
        iha.follows (h₁₂.region_of h) hη₂ ha
      obtain ⟨h₃, hargRaw⟩ := infer_unmarked_evolves (h₁₂.region_of h) harg
      have h₁₃ := h₁₂.step h₃
      have hargRaw₃ := (hargRaw argRaw rfl).imp fun t ht => ht.anywhere
      obtain ⟨h₄, hcopy', -, -⟩ := instantiate_evolves h₁₃.region hargRaw₃
      obtain ⟨η₄, hη₄, hagree₄, hty₄, hctx₄⟩ := instantiate_follows h₁₃.region hargRaw₃ hη₃
      -- the instance of the function keeps its types while the argument is inferred
      have hagree₂₄ : ∀ m < (instantiate fnRaw st₁).2.count, η₄ m = η₂ m := fun m hm => by
        rw [hagree₄ m (lt_of_lt_of_le hm h₃.count_le), hagree₃ m hm]
      obtain ⟨hfty', hfctx, -⟩ := Typing.all_iff.mp hcopy
      have hty : (instantiate fnRaw st₁).1.ty.eval η₄ =
          Plain.arrow ((instantiate argRaw st₃).1.ty.eval η₄) t := by
        rw [hfty'.eval_eq hagree₂₄, hty₂, ← hfty, hty₄]
      obtain ⟨T, st₅, happ, hok, η₅, hη₅, hagree₅, hc, rfl⟩ := applyTypings_complete h₄.region
        (hcopy.imp fun t ht => (ht.mono (le_trans h₃.count_le h₄.count_le)).anywhere)
        (hcopy'.imp fun t ht => ht.anywhere) hη₄ hty l fnRaw argRaw
      rw [Owns.map_eval_eq hfctx hagree₂₄, hctx₂, hctx₄] at hc
      refine ⟨T, (Tree.settle (.apply ⟨l, none⟩ fn' arg') (.ok T)).2, st₅, ?_, ?_, η₅, hη₅,
        fun m hm => ?_, hc, rfl⟩
      · rw [Tree.unmarked_apply, infer_apply rfl, hfn]
        simp only [harg, happ]
        rfl
      · exact (Tree.succeeded_settle (t := .apply ⟨l, none⟩ fn' arg') rfl).mpr
          ⟨fun _ => hok, by simp [Tree.children, hfsucc, hasucc]⟩
      · have hm₁ := lt_of_lt_of_le hm h₁.count_le
        have hm₂ := lt_of_lt_of_le hm₁ h₂.count_le
        rw [hagree₅ m (lt_of_lt_of_le hm₂ (le_trans h₃.count_le h₄.count_le)), hagree₂₄ m hm₂,
          hagree₂ m hm₁, hagree₁ m hm]
  · obtain ⟨fnRaw, fn', st₁, argRaw, arg', st₂, -, -, happ, -⟩ := infer_apply_ok hres
    rw [applyTypings_eq] at happ
    split at happ <;> cases happ <;> rfl

/-- A function with parameters. -/
theorem follows_fn {l : Span} {params : List String} {body : Tree Span} (ih : Follows body) :
    Follows (.fn l params body) := by
  refine .of_undeclared rfl (fun {st η} h hη {c t d} hd => ?_) fun {st T t' st'} hres => ?_
  · cases hd with
    | fn hb hbinds =>
      obtain ⟨raw, body', st₁, hbody, hsucc, η₁, hη₁, hagree₁, rfl, rfl⟩ := ih.follows h hη hb
      obtain ⟨h₁, hraw⟩ := infer_unmarked_evolves h hbody
      have hraw₁ := (hraw raw rfl).imp fun t ht => ht.anywhere
      obtain ⟨h₂, hcopy, -, -⟩ := instantiate_evolves h₁.region hraw₁
      -- types for the variables of the body give types for those of its copy
      obtain ⟨η₂, hη₂, hagree₂, hty₂, hctx₂⟩ := instantiate_follows h₁.region hraw₁ hη₁
      obtain ⟨hty, hctx, -⟩ := Typing.all_iff.mp hcopy
      rw [← hctx₂] at hbinds
      -- and then for the parameters, as the derivation binds them
      obtain ⟨ts, c, st₃, η₃, hbind, hη₃, hagree₃, rfl, rfl⟩ :=
        bindParams_complete l params h₂.region hctx hη₂ hbinds
      refine .settle (t := .fn ⟨l, none⟩ params body')
        (T := ⟨.arrow (.product ts) (instantiate raw st₁).1.ty, c, []⟩) ?_ rfl rfl
        (by simpa [Tree.children] using hsucc) ⟨η₃, hη₃, fun m hm => ?_, rfl, ?_⟩
      · rw [Tree.unmarked_fn, infer_fn rfl, hbody]
        simp only [fnTyping_eq, hbind]
      · have hm₁ := lt_of_lt_of_le hm h₁.count_le
        rw [hagree₃ m (lt_of_lt_of_le hm₁ h₂.count_le), hagree₂ m hm₁, hagree₁ m hm]
      · rw [Ty.eval_arrow, Ty.eval_product, hty.eval_eq hagree₃, hty₂]
  · obtain ⟨raw, body', st₁, ts, c, -, -, rfl, -⟩ := infer_fn_ok hres
    rfl

/-- **Inference follows every derivation.** -/
theorem follows (n : Tree Span) : Follows n := by
  induction n using Tree.induction with
  | apply l fn arg ihf iha => exact follows_apply ihf iha
  | fn l params body ih => exact follows_fn ih
  | int l value =>
    refine .of_undeclared rfl (fun {st η} h hη {c t d} hd => ?_) fun {st T t' st'} hres => ?_
    · cases hd
      exact .settle (t := .int ⟨l, none⟩ value) (infer_int rfl value st) rfl rfl
        (by simp [Tree.children]) ⟨η, hη, fun _ _ => rfl, rfl, (Ty.eval_int η).symm⟩
    · rw [Tree.unmarked_int, infer_int rfl] at hres
      cases hres
      rfl
  | var l name =>
    refine .of_undeclared rfl (fun {st η} h hη {c t d} hd => ?_) fun {st T t' st'} hres => ?_
    · cases hd
      have hvar : (fun m => if m < st.count then η m else t) st.count = t := if_neg (lt_irrefl _)
      refine .settle (t := .var ⟨l, none⟩ name) (infer_var rfl name st) rfl rfl
        (by simp [Tree.children]) ⟨fun m => if m < st.count then η m else t,
          h.solves_congr hη fun m hm => if_pos hm, fun m hm => if_pos hm, ?_, ?_⟩
      · simp only [Context.singleton, Uses.map_cons, List.map_singleton, Ty.eval_var, hvar,
          Uses.map_nil]
      · simp only [Ty.eval_var, hvar]
    · rw [Tree.unmarked_var, infer_var rfl] at hres
      cases hres
      rfl
  | array l elems _ =>
    refine .of_undeclared rfl (fun {st η} h hη {c t d} hd => by cases hd)
      fun {st T t' st'} hres => ?_
    rw [Tree.unmarked_array, infer_array rfl] at hres
    cases hres
  | assign l name value _ =>
    refine .of_undeclared rfl (fun {st η} h hη {c t d} hd => by cases hd)
      fun {st T t' st'} hres => ?_
    rw [Tree.unmarked_assign, infer_assign rfl] at hres
    cases hres
  | tuple l elems ih =>
    refine .of_undeclared rfl (fun {st η} h hη {c t d} hd => ?_) fun {st T t' st'} hres => ?_
    · cases hd with
      | tuple hall =>
        obtain ⟨Ts, ts', st₁, η₁, hres, hsucc, hη₁, hagree, rfl, rfl⟩ :=
          inferAll_follows elems ih h hη hall
        refine .settle (t := .tuple ⟨l, none⟩ ts') (T := tupleTyping Ts) ?_ rfl rfl hsucc
          ⟨η₁, hη₁, hagree, ?_, ?_⟩
        · rw [Tree.unmarked_tuple, infer_tuple rfl, hres]
          rfl
        · rw [tupleTyping, Typing.map_foldl_union, Uses.map_nil]
        · rw [tupleTyping, Ty.eval_product, List.map_map]
          rfl
    · obtain ⟨Ts, ts, -, rfl, -⟩ := infer_tuple_ok hres
      rfl
  | decl l name value ih =>
    refine ⟨fun {st η} h hη {c t d} hd => ?_, fun {st} h {T t' st'} hres => ?_⟩
    · cases hd with
      | decl hv =>
        obtain ⟨raw, value', st₁, hvalue, hsucc, η₁, hη₁, hagree, -, -⟩ := ih.follows h hη hv
        refine .settle (t := .decl ⟨l, none⟩ name value') (T := declTyping name raw) ?_ rfl rfl
          (by simpa [Tree.children] using hsucc) ⟨η₁, hη₁, hagree, rfl, (Ty.eval_unit η₁).symm⟩
        rw [Tree.unmarked_decl, infer_decl rfl, hvalue]
        rfl
    · obtain ⟨raw, value', hvalue, rfl, rfl⟩ := infer_decl_ok hres
      obtain ⟨h₁, hraw⟩ := infer_unmarked_evolves h hvalue
      -- the declared typing is outside the region of the variables to come
      refine ⟨⟨(st'.count ≤ ·), h₁.region.above, fun n t _ hb w hw => ?_, Owns.con (by simp),
        Uses.all_nil, ?_⟩, .cons ⟨rfl, ih.general h hvalue⟩ .nil⟩
      · exact Nat.not_le.mpr ((h₁.region.allocated n t hb).2 w hw)
      · rw [declTyping, List.forall_mem_singleton]
        exact (hraw raw rfl).imp fun t ht w hw => ⟨Nat.not_le.mpr (ht w hw).2, (ht w hw).2⟩
  | ret l value ih =>
    refine ⟨fun {st η} h hη {c t d} hd => ?_, fun {st} h {T t' st'} hres => ?_⟩
    · cases hd with
      | ret hv =>
        obtain ⟨raw, value', st₁, hvalue, hsucc, hrun⟩ := ih.follows h hη hv
        refine .settle (t := .ret ⟨l, none⟩ value') ?_ rfl rfl
          (by simpa [Tree.children] using hsucc) hrun
        rw [Tree.unmarked_ret, infer_ret rfl, hvalue]
    · obtain ⟨value', hvalue, -⟩ := infer_ret_ok hres
      exact ih.declares h hvalue
  | block l stmts ih =>
    have hstart : ∀ {st}, Region Anywhere st → Declares st (.closed .unit)
      ([] : Table (Tree Span)) := fun h => .of_nil h Owns.closed_unit rfl
    refine ⟨fun {st η} h hη {c t d} hd => ?_, fun {st} h {T t' st'} hres => ?_⟩
    · cases hd with
      | block hstmts =>
        rw [← Ty.eval_unit η] at hstmts
        obtain ⟨T, stmts', st₁, hres, hsucc, hrun⟩ :=
          inferStatements_follows stmts ih h (hstart h) hη hstmts
        refine .settle (t := .block ⟨l, none⟩ stmts') ?_ rfl rfl hsucc hrun
        rw [Tree.unmarked_block, infer_block rfl, hres]
    · obtain ⟨stmts', hstmts, -⟩ := infer_block_ok hres
      exact inferStatements_declares stmts ih h (hstart h) hstmts

end Nodes

/-- Inference of a node that has a derivation finds a typing, and no application fails. -/
theorem infer_of_derives {n : Tree Span} {c : Uses Plain} {t : Plain} {d : Table (Tree Span)}
    (hd : Derives n c t d) {r : Except Problem Typing} {t' : Tree Mark}
    (hres : infer n.unmarked {} = ((r, t'), st')) : (∃ T, r = .ok T) ∧ t'.Succeeded := by
  obtain ⟨T, t₁, st₁, hrun, hsucc, -⟩ := (follows n).follows region_start
    (region_start.acyclic.solves_extend fun _ => Plain.unit) hd
  rw [hres] at hrun
  cases hrun
  exact ⟨⟨T, rfl⟩, hsucc⟩

/-- **Inferred typings are principal, and nothing derivable is refused.**  Where inference finds a
typing and no application fails, the derivations for the node are the instances of the resolved
typing.  Where it ends with a problem, or an application fails, there is no derivation. -/
theorem infer_principal {n : Tree Span} {r : Except Problem Typing} {t' : Tree Mark}
    (hres : infer n.unmarked {} = ((r, t'), st')) :
    (∀ T, r = .ok T → t'.Succeeded → ∀ c t d, Derives n c t d ↔
        d = n.declared ∧ ∃ θ, c = Uses.map (Ty.eval θ) (T.apply st'.subst).context ∧
          t = (T.apply st'.subst).ty.eval θ) ∧
      ((∃ problem, r = .error problem) ∨ ¬t'.Succeeded → ∀ c t d, ¬Derives n c t d) := by
  refine ⟨fun T hT hsucc c t d => ⟨fun hd => ⟨hd.declared_eq, ?_⟩, ?_⟩, fun hfail c t d hd => ?_⟩
  · subst hT
    exact (general_iff.mp ((follows n).general region_start hres)).1 c t d hd
  · rintro ⟨rfl, θ, rfl, rfl⟩
    subst hT
    exact (sound_iff.mp (infersSoundly n region_start hres hsucc)).1 θ
  · obtain ⟨⟨T, rfl⟩, hsucc⟩ := infer_of_derives hd hres
    rcases hfail with ⟨problem, hr⟩ | hfail
    · cases hr
    · exact hfail hsucc

/-- A declared function used at two types, and a function declared in terms of itself. -/
theorem infer_principal_identity :
    let identity : Tree Span := .block ⟨0, 0⟩
      [.decl ⟨0, 0⟩ "id" (.fn ⟨0, 0⟩ ["x"] (.var ⟨0, 0⟩ "x")),
        .apply ⟨0, 0⟩ (.var ⟨0, 0⟩ "id") (.tuple ⟨0, 0⟩ [.int ⟨0, 0⟩ 1]),
        .apply ⟨0, 0⟩ (.var ⟨0, 0⟩ "id") (.tuple ⟨0, 0⟩ [.var ⟨0, 0⟩ "y"])]
    let recursive : Tree Span := .block ⟨0, 0⟩
      [.decl ⟨0, 0⟩ "f" (.fn ⟨0, 0⟩ ["x"] (.apply ⟨0, 0⟩ (.var ⟨0, 0⟩ "f") (.var ⟨0, 0⟩ "x"))),
        .var ⟨0, 0⟩ "f"]
    (∃ T t' st', infer identity.unmarked {} = ((.ok T, t'), st') ∧ t'.Succeeded ∧
      ∀ c t d, Derives identity c t d ↔ d = identity.declared ∧
        ∃ θ, c = Uses.map (Ty.eval θ) (T.apply st'.subst).context ∧
          t = (T.apply st'.subst).ty.eval θ) ∧
      ∀ c t d, ¬Derives recursive c t d := by
  intro identity recursive
  refine ⟨?_, ?_⟩
  · have hok : (infer identity.unmarked {}).1.1.isOk = true := by cbv
    have hsucc : (infer identity.unmarked {}).1.2.Succeeded := of_decide_eq_true (by cbv)
    rcases hres : infer identity.unmarked {} with ⟨⟨problem | T, t'⟩, st'⟩ <;>
      rw [hres] at hok hsucc
    · cases hok
    · exact ⟨T, t', st', rfl, hsucc, (infer_principal hres).1 T rfl hsucc⟩
  · have hfail : (infer recursive.unmarked {}).1.1.isOk = false := by cbv
    rcases hres : infer recursive.unmarked {} with ⟨⟨problem | T, t'⟩, st'⟩ <;>
      rw [hres] at hfail
    · exact (infer_principal hres).2 (Or.inl ⟨problem, rfl⟩)
    · cases hfail

end LetTyping
