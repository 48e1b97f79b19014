import Mathlib
import LetTyping.Proofs.Checking
import LetTyping.Proofs.Names

/-!
# Failed applications are accounted for

A failed application leaves a mark in its type, and marks travel with types: into functions that
return the result, into tuples, into the declarations of a block.  A mark in the typing of a node
comes from a failed application beneath the node all the same.  Whatever is bound after the node was
inferred, its typing is resolved as it was then: later steps work on copies.

So an application none of whose operands has a failed application beneath it has operands without
marks, and if it fails it is reported.  The other failed applications have such a one beneath them.

## Main definitions

* `Recorded` — the typing of a node is resolved as it was when the node was inferred.

## Main results

* `infer_recorded` — every typing that inference leaves in a tree is recorded.
* `Recorded.failureFree` — no marks of failure where no application has failed.
* `exists_failure` — beneath every failed application there is a reported one.
* `inferStatements_apart` — the free names of a block are copies of those of its statements.
* `check_failures_complete` — **a program has no reported failures exactly if no typing has a mark
  of failure, and every failed application has a reported one beneath it.**
-/

namespace LetTyping

variable {K M : Nat → Prop} {st st' : State} {T : Typing}

/-- The node `n` is what inference left of a tree without typings, and its typing is resolved in the
state `st` as it was right after that. -/
def Recorded (st : State) (n : Tree Mark) (T : Typing) : Prop :=
  ∃ (c : Tree Span) (st₁ st₂ : State), Region Anywhere st₁ ∧
    infer c.unmarked st₁ = ((.ok T, n), st₂) ∧ T.apply st.subst = T.apply st₂.subst

/-! ### Later states -/

/-- The typings of a tree are resolved alike in two states. -/
def Tree.Unaffected (st st' : State) (t : Tree Mark) : Prop :=
  t.Marked fun _ T => T.apply st'.subst = T.apply st.subst

theorem Tree.Unaffected.recorded {t : Tree Mark} (h : t.Unaffected st st')
    (hrec : t.Marked (Recorded st)) : t.Marked (Recorded st') := by
  intro n hn T hT
  obtain ⟨c, st₁, st₂, hst, hres, heq⟩ := hrec n hn T hT
  exact ⟨c, st₁, st₂, hst, hres, (h n hn T hT).trans heq⟩

/-- Typings without variables of a region are not affected by what happens there. -/
theorem Tree.Owned.unaffected {t : Tree Mark} (h : t.Owned (¬K ·) st) (hev : Evolves K st st')
    (hs : st.subst.Acyclic) (hK : st.subst.ClosedOn (¬K ·)) : t.Unaffected st st' :=
  h.imp fun _ _ hT => hev.apply_spared hs hK hT

/-- Typings are not affected by what is allocated later. -/
theorem Tree.Owned.unaffected_above {t : Tree Mark} (h : t.Owned M st) (hM : Region M st)
    (hev : Evolves (st.count ≤ ·) st st') : t.Unaffected st st' :=
  h.imp fun _ _ hT => hev.apply_typing hM (hT.imp fun _ ht => ht.anywhere)

/-! ### Recorded typings -/

/-- A node that has just been inferred is recorded with the nodes below it. -/
theorem recorded_settle {n : Tree Span} (h : Region Anywhere st) {t t' : Tree Mark}
    {r r' : Except Problem Typing} (hres : infer n.unmarked st = ((r', t'), st'))
    (ht : t.settle r = (r', t')) (hroot : t.label.typing = none)
    (hc : ∀ c ∈ t.children, c.Marked (Recorded st')) : t'.Marked (Recorded st') := by
  obtain rfl : r = r' := (Tree.settle_fst t r).symm.trans (congrArg Prod.fst ht)
  obtain rfl : (t.settle r).2 = t' := congrArg Prod.snd ht
  refine (Tree.marked_settle hroot).mpr ⟨fun T hT => ?_, hc⟩
  exact ⟨n, st, st', h, hT ▸ hres, rfl⟩

/-- A node without a typing, with recorded typings below it. -/
theorem recorded_refused {t : Tree Mark} (hroot : t.label.typing = none)
    (hc : ∀ c ∈ t.children, c.Marked (Recorded st)) : t.Marked (Recorded st) :=
  Tree.marked_iff.mpr ⟨fun T hT => absurd (hroot.symm.trans hT) (by simp), hc⟩

/-- All typings that inference leaves in a tree are recorded. -/
def Recording (n : Tree Span) : Prop :=
  ∀ {st : State}, Region Anywhere st → ∀ {r t' st'}, infer n.unmarked st = ((r, t'), st') →
    t'.Marked (Recorded st')

theorem inferAll_recorded (ns : List (Tree Span)) (ih : ∀ n ∈ ns, Recording n) :
    ∀ {st : State}, Region Anywhere st → ∀ {r ts' st'},
      inferAll (ns.map Tree.unmarked) st = ((r, ts'), st') →
      Evolves (st.count ≤ ·) st st' ∧ ∀ t' ∈ ts', t'.Marked (Recorded st') := by
  induction ns with
  | nil =>
    intro st h r ts' st' hres
    rw [List.map_nil, inferAll_nil] at hres
    cases hres
    exact ⟨h.above.evolves_refl, by simp⟩
  | cons n ns ihs =>
    intro st h r ts' st' hres
    rw [List.forall_mem_cons] at ih
    rw [List.map_cons, inferAll_cons] at hres
    rcases hn : infer n.unmarked st with ⟨⟨problem | T, t₁⟩, st₁⟩ <;> rw [hn] at hres
    all_goals
      obtain ⟨h₁, -⟩ := infer_unmarked_evolves h hn
      have hrec₁ := ih.1 h hn
    · cases hres
      -- the nodes behind the one that failed have no marks yet
      exact ⟨h₁, List.forall_mem_cons.mpr ⟨hrec₁, List.forall_mem_map.mpr fun n _ =>
        Tree.marked_unmarked n⟩⟩
    · simp only at hres
      rcases hns : inferAll (ns.map Tree.unmarked) st₁ with ⟨⟨r', ts₁⟩, st₂⟩
      rw [hns] at hres
      cases hres
      obtain ⟨h₂, hrec₂⟩ := ihs ih.2 (h₁.region_of h) hns
      -- the marks of the first node stay recorded, since its typings are resolved as before
      have hsame := (infer_unmarked_owned h hn).unaffected_above h₁.region h₂
      exact ⟨h₁.step h₂, List.forall_mem_cons.mpr ⟨hsame.recorded hrec₁, hrec₂⟩⟩

theorem inferStatements_recorded (ns : List (Tree Span)) (ih : ∀ n ∈ ns, Recording n) :
    ∀ {sofar : Typing} {st : State}, Region Anywhere st → sofar.All (Owns Anywhere st) →
      ∀ {r ts' st'}, inferStatements sofar (ns.map Tree.unmarked) st = ((r, ts'), st') →
      Evolves (st.count ≤ ·) st st' ∧ ∀ t' ∈ ts', t'.Marked (Recorded st') := by
  induction ns with
  | nil =>
    intro sofar st h _ r ts' st' hres
    rw [List.map_nil, inferStatements_nil] at hres
    cases hres
    exact ⟨h.above.evolves_refl, by simp⟩
  | cons n ns ihs =>
    intro sofar st h hsofar r ts' st' hres
    rw [List.forall_mem_cons] at ih
    -- statements that are not reached have no marks, so there is nothing to be recorded for them
    have hrest : ∀ st : State, ∀ t ∈ ns.map Tree.unmarked, t.Marked (Recorded st) := fun st =>
      List.forall_mem_map.mpr fun n _ => Tree.marked_unmarked n
    have h₀ := State.logged_evolves h.above
      (.statement n.unmarked.kind n.unmarked.label.span.start)
    rw [List.map_cons, inferStatements_cons] at hres
    rcases hn : infer n.unmarked _ with ⟨⟨problem | raw, t₁⟩, st₁⟩ <;> rw [hn] at hres
    all_goals
      obtain ⟨h₁, hraw⟩ := infer_unmarked_evolves (h₀.region_of h) hn
      have hrec₁ := ih.1 (h₀.region_of h) hn
      have hown₁ := infer_unmarked_owned (h₀.region_of h) hn
      replace h₁ := h₀.step h₁
    · cases hres
      exact ⟨h₁, List.forall_mem_cons.mpr ⟨hrec₁, hrest _⟩⟩
    -- what was collected before is over variables that were there then
    · have hsofar₁ : sofar.All (Owns Anywhere st₁) := hsofar.imp fun t ht => ht.mono h₁.count_le
      obtain ⟨h₂, hown₂⟩ := absorb_evolves (h₁.region_of h) hsofar₁
        ((hraw raw rfl).imp fun t ht => ht.anywhere) t₁.label.span
      simp only at hres
      rcases habs : absorb sofar t₁.label.span raw st₁ with ⟨problem | sofar', st₂⟩ <;>
        rw [habs] at hres h₂ hown₂
      · cases hres
        -- taking in a statement may fail, but it never touches the variables of its marks
        have hsame := hown₁.unaffected_above h₁.region h₂
        exact ⟨h₁.step h₂, List.forall_mem_cons.mpr ⟨hsame.recorded hrec₁, hrest _⟩⟩
      · simp only at hres
        rcases hns : inferStatements sofar' (ns.map Tree.unmarked) st₂ with ⟨⟨r', ts₁⟩, st₃⟩
        rw [hns] at hres
        cases hres
        have h₁₂ := h₁.step h₂
        obtain ⟨h₃, hrec₃⟩ := ihs ih.2 (h₁₂.region_of h)
          (hown₂ Anywhere (h₁.region_of h) hsofar₁ sofar' rfl) hns
        have hsame := hown₁.unaffected_above h₁.region (h₂.step h₃)
        exact ⟨h₁₂.step h₃, List.forall_mem_cons.mpr ⟨hsame.recorded hrec₁, hrec₃⟩⟩

/-- An application binds variables of the copies of its operands' typings.  The typings that were
found since the copy of the function was made are not affected. -/
theorem applyTypings_unaffected {t : Tree Mark} {fn argRaw : Typing} (h : Region Anywhere st)
    (hfn : fn.All (Owns M st)) (hev : Evolves (st.count ≤ ·) st st')
    (harg : argRaw.All (Owns Anywhere st')) (ht : t.Owned (st.count ≤ ·) st') (span : Span)
    (fnRaw : Typing) :
    t.Unaffected st' (applyTypings span fnRaw fn argRaw (instantiate argRaw st').1
      (instantiate argRaw st').2).2 := by
  have hst' := hev.region_of h
  -- the copy of the function was there before, that of the argument comes after
  have hK : Region (fun n => n < st.count ∨ st'.count ≤ n) st' := by
    refine ⟨hst'.acyclic, hst'.allocated, fun n t hn hb w hw => ?_, fun n hn => Or.inr hn⟩
    rcases hn with hn | hn
    · have hb₀ := (hev.kept n (Nat.not_le.mpr hn)).symm.trans hb
      exact Or.inl ((h.allocated n t hb₀).2 w hw)
    · exact absurd hb (by simp [hst'.unbound hn])
  have hspared : st'.subst.ClosedOn (fun n => ¬(n < st.count ∨ st'.count ≤ n)) := by
    intro n t hn hb w hw
    have hw₁ := hev.region.closed n t (by omega) hb w hw
    have hw₂ := (hst'.allocated n t hb).2 w hw
    omega
  obtain ⟨h₁, -, hcopy, -⟩ := instantiate_evolves hK harg
  have h₂ := (applyTypings_evolves h₁.region
    (hfn.imp fun u hu w hw => ⟨Or.inl (hu w hw).2,
      lt_of_lt_of_le (hu w hw).2 (le_trans hev.count_le h₁.count_le)⟩)
    (hcopy.imp fun u hu => hu.weaken fun _ => Or.inr) span fnRaw argRaw).1
  refine Tree.Owned.unaffected (ht.imp fun _ _ hT => hT.imp fun u hu w hw => ?_) (h₁.trans h₂)
    hst'.acyclic hspared
  have hw := hu w hw
  exact ⟨by omega, hw.2⟩

/-- A function applied to its argument. -/
theorem recording_apply {l : Span} {fn arg : Tree Span} (ihf : Recording fn) (iha : Recording arg) :
    Recording (.apply l fn arg) := by
  intro st h r t' st' hwhole
  -- the run as a whole is kept beside its parts, since the mark of the node records it
  have hres := hwhole
  rw [Tree.unmarked_apply, infer_apply rfl] at hres
  rcases hfn : infer fn.unmarked st with ⟨⟨problem | fnRaw, fn'⟩, st₁⟩ <;> rw [hfn] at hres
  all_goals
    obtain ⟨h₁, hfnRaw⟩ := infer_unmarked_evolves h hfn
    have hrec₁ := ihf h hfn
    have hown₁ := infer_unmarked_owned h hfn
  · cases hres
    exact recorded_refused rfl (by simpa [Tree.children] using ⟨hrec₁, Tree.marked_unmarked arg⟩)
  obtain ⟨h₂, hcopy, -, -⟩ := instantiate_evolves h₁.region.above
    ((hfnRaw fnRaw rfl).imp fun t ht => ht.anywhere)
  have hst₂ := h₂.region_of (h₁.region_of h)
  simp only at hres
  rcases harg : infer arg.unmarked (instantiate fnRaw st₁).2 with
    ⟨⟨problem | argRaw, arg'⟩, st₂⟩ <;> rw [harg] at hres
  all_goals
    obtain ⟨h₃, hargRaw⟩ := infer_unmarked_evolves hst₂ harg
    have hrec₃ := iha hst₂ harg
    have h₂₃ := h₂.step h₃
  · cases hres
    have hfn' := hown₁.unaffected_above h₁.region h₂₃
    exact recorded_refused rfl (by simpa [Tree.children] using ⟨hfn'.recorded hrec₁, hrec₃⟩)
  have hargRaw₃ := (hargRaw argRaw rfl).imp fun t ht => ht.anywhere
  obtain ⟨h₄, -, hcopy', -⟩ := instantiate_evolves h₂₃.region hargRaw₃
  -- the two copies are unified, one made before the argument was inferred, one after it
  have h₅ := (applyTypings_evolves h₄.region
    (hcopy.imp fun t ht => ht.mono (le_trans h₃.count_le h₄.count_le))
    (hcopy'.imp fun t ht => ht.weaken fun n hn => le_trans h₂₃.count_le hn) l fnRaw argRaw).1
  -- the marks in the function are older than all that, and those in the argument are spared by it
  have hfn' := hown₁.unaffected_above h₁.region (h₂₃.trans (h₄.trans h₅))
  have harg' := applyTypings_unaffected hst₂ hcopy h₃ hargRaw₃ (infer_unmarked_owned hst₂ harg) l
    fnRaw
  obtain ⟨hsettle, rfl⟩ := Prod.mk.inj hres
  exact recorded_settle h hwhole hsettle rfl
    (by simpa [Tree.children] using ⟨hfn'.recorded hrec₁, harg'.recorded hrec₃⟩)

/-- **Every typing that inference leaves in a tree is recorded.** -/
theorem infer_recorded (n : Tree Span) : Recording n := by
  induction n using Tree.induction with
  | apply l fn arg ihf iha => exact recording_apply ihf iha
  | int l value =>
    intro st h r t' st' hwhole
    have hres := hwhole
    rw [Tree.unmarked_int, infer_int rfl] at hres
    obtain ⟨hsettle, rfl⟩ := Prod.mk.inj hres
    exact recorded_settle h hwhole hsettle rfl (by simp [Tree.children])
  | var l name =>
    intro st h r t' st' hwhole
    have hres := hwhole
    rw [Tree.unmarked_var, infer_var rfl] at hres
    obtain ⟨hsettle, rfl⟩ := Prod.mk.inj hres
    exact recorded_settle h hwhole hsettle rfl (by simp [Tree.children])
  -- no node below an array literal or an assignment is inferred
  | array l elems _ =>
    intro st h r t' st' hres
    rw [Tree.unmarked_array, infer_array rfl] at hres
    cases hres
    rw [← Tree.unmarked_array]
    exact Tree.marked_unmarked _
  | assign l name value _ =>
    intro st h r t' st' hres
    rw [Tree.unmarked_assign, infer_assign rfl] at hres
    cases hres
    exact Tree.marked_unmarked (.assign l name value)
  | tuple l elems ih =>
    intro st h r t' st' hwhole
    have hres := hwhole
    rw [Tree.unmarked_tuple, infer_tuple rfl] at hres
    rcases hall : inferAll (elems.map Tree.unmarked) st with ⟨⟨r', elems'⟩, st₁⟩
    rw [hall] at hres
    obtain ⟨hsettle, rfl⟩ := Prod.mk.inj hres
    exact recorded_settle h hwhole hsettle rfl (inferAll_recorded elems ih h hall).2
  | fn l params body ih =>
    intro st h r t' st' hwhole
    have hres := hwhole
    rw [Tree.unmarked_fn, infer_fn rfl] at hres
    rcases hbody : infer body.unmarked st with ⟨⟨problem | raw, body'⟩, st₁⟩ <;> rw [hbody] at hres
    all_goals
      obtain ⟨h₁, hraw⟩ := infer_unmarked_evolves h hbody
      have hrec₁ := ih h hbody
    · cases hres
      exact recorded_refused rfl (by simpa [Tree.children] using hrec₁)
    -- binding the parameters touches the copy of the body's typing and not its marks
    · obtain ⟨h₂, hcopy, -, -⟩ := instantiate_evolves h₁.region.above
        ((hraw raw rfl).imp fun t ht => ht.anywhere)
      have h₃ := (fnTyping_evolves h₂.region hcopy l params).1
      simp only at hres
      rcases hty : fnTyping l params (instantiate raw st₁).1 (instantiate raw st₁).2 with ⟨r', st₂⟩
      rw [hty] at hres h₃
      have hbody' := (infer_unmarked_owned h hbody).unaffected_above h₁.region (h₂.trans h₃)
      obtain ⟨hsettle, rfl⟩ := Prod.mk.inj hres
      exact recorded_settle h hwhole hsettle rfl
        (by simpa [Tree.children] using hbody'.recorded hrec₁)
  | decl l name value ih =>
    intro st h r t' st' hwhole
    have hres := hwhole
    rw [Tree.unmarked_decl, infer_decl rfl] at hres
    rcases hvalue : infer value.unmarked st with ⟨⟨r', value'⟩, st₁⟩
    rw [hvalue] at hres
    obtain ⟨hsettle, rfl⟩ := Prod.mk.inj hres
    exact recorded_settle h hwhole hsettle rfl (by simpa [Tree.children] using ih h hvalue)
  | ret l value ih =>
    intro st h r t' st' hwhole
    have hres := hwhole
    rw [Tree.unmarked_ret, infer_ret rfl] at hres
    rcases hvalue : infer value.unmarked st with ⟨⟨r', value'⟩, st₁⟩
    rw [hvalue] at hres
    obtain ⟨hsettle, rfl⟩ := Prod.mk.inj hres
    exact recorded_settle h hwhole hsettle rfl (by simpa [Tree.children] using ih h hvalue)
  | block l stmts ih =>
    intro st h r t' st' hwhole
    have hres := hwhole
    rw [Tree.unmarked_block, infer_block rfl] at hres
    rcases hstmts : inferStatements (.closed .unit) (stmts.map Tree.unmarked) st with
      ⟨⟨r', stmts'⟩, st₁⟩
    rw [hstmts] at hres
    obtain ⟨hsettle, rfl⟩ := Prod.mk.inj hres
    exact recorded_settle h hwhole hsettle rfl
      (inferStatements_recorded stmts ih h Owns.closed_unit hstmts).2

/-! ### Marks of failure -/

/-- The types of a typing have no marks of failure. -/
abbrev Typing.FailureFree (T : Typing) : Prop := T.All fun t => t.hasFailure = false

/-- **No marks of failure where no application has failed.** -/
theorem Recorded.failureFree {n : Tree Mark} (h : Recorded st n T) (hn : n.Succeeded) :
    (T.apply st.subst).FailureFree := by
  obtain ⟨c, st₁, st₂, hst, hres, heq⟩ := h
  obtain ⟨V, -, hstock, hT⟩ := infer_madeOf c (hst.stock False) hres (Or.inr hn)
  rw [heq]
  exact (hstock.apply_typing hT).imp fun _ ht => ht.hasFailure

/-- A node without failed applications carries no mark. -/
theorem Recorded.carriesFailure {n : Tree Mark} (h : n.Marked (Recorded st)) (hn : n.Succeeded) :
    carriesFailure st.subst n = false := by
  rw [LetTyping.carriesFailure]
  cases hT : n.label.typing with
  | none => rfl
  | some T =>
    have hty := (Typing.all_iff.mp (((Tree.marked_iff.mp h).1 T hT).failureFree hn)).1
    rwa [Typing.apply, Typing.mapTypes_ty] at hty

/-- The mark of a failed application names the types of its two operands. -/
theorem applyTypings_failureParts {span : Span} {fnRaw fn argRaw arg : Typing}
    (h : (applyTypings span fnRaw fn argRaw arg st).1.ty.isFailure = true) :
    ∃ parts, (applyTypings span fnRaw fn argRaw arg st).1.ty.failureParts? = some parts := by
  rw [applyTypings_eq] at h ⊢
  rcases hunify : (unify st.subst fn.ty (.arrow arg.ty (.var ⟨st.count, none⟩))).1 with
    cause | _ <;> rw [hunify] at h
  · exact ⟨_, rfl⟩
  · cases h

theorem Recorded.failureParts {m : Mark} {fn arg : Tree Mark} (h : Recorded st (.apply m fn arg) T)
    (hT : T.ty.isFailure = true) : ∃ parts, T.ty.failureParts? = some parts := by
  obtain ⟨c, st₁, st₂, hst, hres, -⟩ := h
  -- the tree before inference is an application as well
  have herase := (infer_completes c.unmarked st₁).erase_eq
  rw [hres, Tree.erase_unmarked] at herase
  have hresult : (Tree.apply m.span fn.erase arg.erase).result st₁ = (.ok T, st₂) := by
    rw [← Tree.result_of_infer hres, ← herase]
    rfl
  rw [Tree.result_apply] at hresult
  obtain ⟨fnRaw, _, -, hresult⟩ := Infer.bind_ok hresult
  obtain ⟨fnCopy, _, -, hresult⟩ := Infer.bind_ok hresult
  obtain ⟨argRaw, _, -, hresult⟩ := Infer.bind_ok hresult
  obtain ⟨argCopy, st₃, -, hresult⟩ := Infer.bind_ok hresult
  obtain rfl : (applyTypings m.span fnRaw fnCopy argRaw argCopy st₃).1 = T :=
    Except.ok.inj (congrArg Prod.fst hresult)
  exact applyTypings_failureParts hT

/-! ### Reports -/

/-- A failed application with operands that carry no mark is reported. -/
theorem failure?_of_operands {m : Mark} {fn arg : Tree Mark} {s : Subst} (hm : m.typing = some T)
    (hT : T.ty.isFailure = true) (hfn : carriesFailure s fn = false)
    (harg : carriesFailure s arg = false) (hparts : ∃ parts, T.ty.failureParts? = some parts) :
    ∃ function argument,
      failure? s (.apply m fn arg) = some ⟨.application function argument, m.span⟩ := by
  obtain ⟨⟨f, a⟩, hparts⟩ := hparts
  refine ⟨(Ty.texts (s.apply f) (s.apply a)).1, (Ty.texts (s.apply f) (s.apply a)).2, ?_⟩
  simp [failure?, hm, hT, hfn, harg, hparts]

/-- What is reported is a failed application, at its span. -/
theorem failure?_eq_some {s : Subst} {n : Tree Mark} {problem : Problem}
    (h : failure? s n = some problem) :
    n.isApply = true ∧ (∃ T, n.label.typing = some T ∧ T.ty.isFailure = true) ∧
      ∃ function argument, problem = ⟨.application function argument, n.label.span⟩ := by
  cases n with
  | apply m fn arg =>
    obtain ⟨T, hT, h⟩ := Option.bind_eq_some_iff.mp h
    split at h
    · cases h
    · next hif =>
      obtain ⟨parts, -, h⟩ := Option.bind_eq_some_iff.mp h
      obtain rfl := Option.some.inj h
      refine ⟨rfl, ⟨T, hT, ?_⟩, _, _, rfl⟩
      simp only [Bool.or_eq_true, not_or, Bool.not_eq_true'] at hif
      simpa using hif.1.1
  | _ => cases h

/-- **Beneath every failed application there is a reported one.** -/
theorem exists_failure {n : Tree Mark} (hrec : n.Marked (Recorded st)) (h : ¬n.Succeeded) :
    ∃ n' ∈ n.subtrees, ∃ problem, failure? st.subst n' = some problem := by
  induction n using Tree.childInduction with
  | step n ih =>
    rw [Tree.exists_subtree_iff]
    by_cases hc : ∀ c ∈ n.children, c.Succeeded
    · -- the failure is at the root, and its operands carry no mark
      have hroot : ∃ T, n.label.typing = some T ∧ n.isApply = true ∧ T.ty.isFailure = true := by
        by_contra hno
        refine h (Tree.marked_iff.mpr ⟨fun T hT happ => ?_, hc⟩)
        by_contra hfail
        exact hno ⟨T, hT, happ, by simpa using hfail⟩
      obtain ⟨T, hT, happ, hfail⟩ := hroot
      obtain ⟨hhere, hbelow⟩ := Tree.marked_iff.mp hrec
      cases n with
      | apply m fn arg =>
        have hcarries : ∀ c ∈ (Tree.apply m fn arg).children, carriesFailure st.subst c = false :=
          fun c hmem => Recorded.carriesFailure (hbelow c hmem) (hc c hmem)
        obtain ⟨_, _, hreport⟩ := failure?_of_operands hT hfail
          (hcarries fn (by simp [Tree.children])) (hcarries arg (by simp [Tree.children]))
          ((hhere T hT).failureParts hfail)
        exact Or.inl ⟨_, hreport⟩
      | _ => cases happ
    · obtain ⟨c, hmem, hfail⟩ : ∃ c ∈ n.children, ¬c.Succeeded := by simpa using hc
      exact Or.inr ⟨c, hmem, ih c hmem ((Tree.marked_iff.mp hrec).2 c hmem) hfail⟩

/-! ### Blocks apart from their statements -/

/-- A region from which the variables of the last step are left out: what they are bound to is left
out as well. -/
theorem Region.skip (h : Region M st) (hspared : st.subst.ClosedOn (¬M ·))
    (hev : Evolves (st.count ≤ ·) st st') :
    Region (fun n => M n ∧ (n < st.count ∨ st'.count ≤ n)) st' ∧
      st'.subst.ClosedOn fun n => ¬(M n ∧ (n < st.count ∨ st'.count ≤ n)) := by
  have hle := hev.count_le
  -- variables that were allocated before the step keep their bindings
  have hold : ∀ n t, n < st.count → st'.subst[n]? = some t → st.subst[n]? = some t :=
    fun n t hn hb => (hev.kept n (Nat.not_le.mpr hn)).symm.trans hb
  refine ⟨⟨hev.region.acyclic, hev.region.allocated, ?_, ?_⟩, ?_⟩
  -- closed: what an old variable of the region is bound to is old and in the region
  · rintro n t ⟨hM, hn | hn⟩ hb w hw
    · have hb₀ := hold n t hn hb
      exact ⟨h.closed n t hM hb₀ w hw, Or.inl ((h.allocated n t hb₀).2 w hw)⟩
    · exact absurd hb (by simp [hev.region.unbound hn])
  · exact fun n hn => ⟨h.fresh n (le_trans hle hn), Or.inr hn⟩
  -- the rest is closed as well: the step binds its own variables to such as it has allocated
  · rintro n t hn hb w hw ⟨hMw, hw'⟩
    by_cases hlt : n < st.count
    · exact hspared n t (fun hM => hn ⟨hM, Or.inl hlt⟩) (hold n t hlt hb) w hw hMw
    · have hw₁ := hev.region.closed n t (Nat.le_of_not_lt hlt) hb w hw
      have hw₂ := (hev.region.allocated n t hb).2 w hw
      omega

/-- **The free names of a block are copies of those of its statements.**  What is bound in the
region of the block's typing leaves the typings of the statements as they are. -/
theorem inferStatements_apart (ns : List (Tree Span)) :
    ∀ {M : Nat → Prop} {sofar : Typing} {st : State}, Region M st → st.subst.ClosedOn (¬M ·) →
      sofar.All (Owns M st) → ∀ {T ts' st'},
      inferStatements sofar (ns.map Tree.unmarked) st = ((.ok T, ts'), st') →
      ∃ M', Region M' st' ∧ st'.subst.ClosedOn (¬M' ·) ∧ T.All (Owns M' st') ∧
        (∀ n < st.count, M' n ↔ M n) ∧ st.count ≤ st'.count ∧
          ∀ t' ∈ ts', t'.Owned (¬M' ·) st' := by
  induction ns with
  | nil =>
    intro M sofar st h hspared hsofar T ts' st' hres
    rw [List.map_nil, inferStatements_nil] at hres
    cases hres
    exact ⟨M, h, hspared, hsofar, fun _ _ => Iff.rfl, le_refl _, by simp⟩
  | cons n ns ihs =>
    intro M sofar st h hspared hsofar T ts' st' hres
    have h₀ := State.logged_evolves h.above
      (.statement n.unmarked.kind n.unmarked.label.span.start)
    obtain ⟨raw, t₁, st₁, sofar', st₂, ts₁, hn, habs, hns, rfl⟩ := inferStatements_cons_ok hres
    obtain ⟨h₁, hraw⟩ := infer_unmarked_evolves (h₀.region_of h.all) hn
    have hown₁ := infer_unmarked_owned (h₀.region_of h.all) hn
    replace h₁ := h₀.step h₁
    -- the variables of the statement are left out, those of its copy are not
    obtain ⟨hM₁, hspared₁⟩ := h.skip hspared h₁
    have hsofar₁ : sofar.All (Owns (fun n => M n ∧ (n < st.count ∨ st₁.count ≤ n)) st₁) :=
      hsofar.imp fun t ht w hw => ⟨⟨(ht w hw).1, Or.inl (ht w hw).2⟩,
        lt_of_lt_of_le (ht w hw).2 h₁.count_le⟩
    obtain ⟨h₂, hown₂⟩ := absorb_evolves hM₁.all (hsofar₁.imp fun _ ht => ht.anywhere)
      ((hraw raw rfl).imp fun _ ht => ht.anywhere) t₁.label.span
    rw [habs] at h₂ hown₂
    have hspared₂ : st₂.subst.ClosedOn fun n => ¬(M n ∧ (n < st.count ∨ st₁.count ≤ n)) := by
      intro n t hn hb
      refine hspared₁ n t hn ((h₂.kept n fun hle => hn ?_).symm.trans hb)
      exact ⟨h.fresh n (le_trans h₁.count_le hle), Or.inr hle⟩
    obtain ⟨M', hM', hspared', hT, hsame, hle, hown'⟩ := ihs (h₂.region_of hM₁) hspared₂
      (hown₂ _ hM₁ hsofar₁ sofar' rfl) hns
    have h₁₂ := le_trans h₁.count_le h₂.count_le
    refine ⟨M', hM', hspared', hT, fun n hn => ?_, le_trans h₁₂ hle,
      List.forall_mem_cons.mpr ⟨?_, hown'⟩⟩
    · rw [hsame n (lt_of_lt_of_le hn h₁₂)]
      exact and_iff_left (Or.inl hn)
    · refine hown₁.imp fun _ _ hT => hT.imp fun t ht w hw => ?_
      obtain ⟨hw₁, hw₂⟩ := ht w hw
      refine ⟨fun hw' => ?_, lt_of_lt_of_le hw₂ (le_trans h₂.count_le hle)⟩
      have hw' := ((hsame w (lt_of_lt_of_le hw₂ h₂.count_le)).mp hw').2
      have hw₁ : st.count ≤ w := hw₁
      omega

/-- The typings of a program's statements are not affected by what is bound in the region of its own
typing. -/
theorem infer_block_apart {l : Span} {ns : List (Tree Span)} {root : Tree Mark}
    (h : Region Anywhere st) (hres : infer (Tree.block l ns).unmarked st = ((.ok T, root), st')) :
    ∃ M, Region M st' ∧ st'.subst.ClosedOn (¬M ·) ∧ T.All (Owns M st') ∧
      ∀ c ∈ root.children, c.Owned (¬M ·) st' := by
  obtain ⟨ts, hstmts, rfl⟩ := infer_block_ok hres
  obtain ⟨M, hM, hspared, hT, -, -, hown⟩ := inferStatements_apart ns h
    (fun _ _ hn => absurd trivial hn) Owns.closed_unit hstmts
  exact ⟨M, hM, hspared, hT, hown⟩

/-- The typing of the program is resolved further against the builtin names, and gets no marks of
failure on the way. -/
theorem resolve_failureFree {withPrelude : Bool} {n : Tree Span} {root : Tree Mark} {event : Event}
    {scope : Defined} {st₁ resolved : State} {unresolved : Context} {span : Span}
    (h : Region Anywhere st) (hres : infer n.unmarked st = ((.ok T, root), st'))
    (hroot : root.Succeeded) (hscope : builtins withPrelude (st'.logged event) = (scope, st₁))
    (hresolve : resolve [] scope span T.context st₁ = (.ok unresolved, resolved)) :
    (T.apply resolved.subst).FailureFree := by
  obtain ⟨V, hV⟩ := resolve_madeOf h hres (Or.inr hroot) hscope hresolve
  exact hV.imp fun _ ht => ht.hasFailure

/-! ### Reports do not depend on what is bound later -/

theorem Tree.mem_subtrees_trans {α : Type} {t n n' : Tree α} (hn : n ∈ t.subtrees)
    (hn' : n' ∈ n.subtrees) : n' ∈ t.subtrees := by
  induction t using Tree.childInduction with
  | step t ih =>
    rw [subtrees_eq t, List.mem_cons, List.mem_flatMap] at hn
    rcases hn with rfl | ⟨c, hc, hn⟩
    · exact hn'
    · exact mem_subtrees_of_child hc (ih c hc hn)

theorem Tree.Marked.of_mem {Q : Tree Mark → Typing → Prop} {t n : Tree Mark} (h : t.Marked Q)
    (hn : n ∈ t.subtrees) : n.Marked Q :=
  fun n' hn' => h n' (mem_subtrees_trans hn hn')

theorem carriesFailure_unaffected {n : Tree Mark} (h : n.Unaffected st st') :
    carriesFailure st'.subst n = carriesFailure st.subst n := by
  rw [carriesFailure, carriesFailure]
  cases hT : n.label.typing with
  | none => rfl
  | some T =>
    have hty := congrArg Typing.ty ((Tree.marked_iff.mp h).1 T hT)
    simp only [Typing.apply, Typing.mapTypes_ty] at hty
    rw [Option.any_some, Option.any_some, hty]

theorem failure?_unaffected {n : Tree Mark} (h : n.Unaffected st st') :
    failure? st'.subst n = failure? st.subst n := by
  cases n with
  | apply m fn arg =>
    obtain ⟨hroot, hc⟩ := Tree.marked_iff.mp h
    have hfn := carriesFailure_unaffected (hc fn (by simp [Tree.children]))
    have harg := carriesFailure_unaffected (hc arg (by simp [Tree.children]))
    -- the parts of the function and the argument play a part only through marks that they carry
    simp only [failure?, hfn, harg]
    refine Option.bind_congr fun T hT => ?_
    have hty := congrArg Typing.ty (hroot T hT)
    simp only [Typing.apply, Typing.mapTypes_ty] at hty
    split
    · rfl
    refine Option.bind_congr fun parts hparts => ?_
    unfold Ty.failureParts? at hparts
    split at hparts
    · next heq =>
      cases hparts
      -- resolved parts of a mark are the parts of the resolved mark
      rw [heq] at hty
      simp only [Subst.apply_con, List.map_cons, List.map_nil, Term.con.injEq, List.cons.injEq,
        true_and, and_true] at hty
      rw [hty.1, hty.2.1]
    · cases hparts
  | _ => rfl

theorem failures_unaffected {root : Tree Mark} (h : root.Unaffected st st') :
    failures st'.subst root = failures st.subst root :=
  List.filterMap_congr fun _ hn => failure?_unaffected (h.of_mem hn)

/-! ### Programs -/

/-- The marks of failure in a tree are accounted for: there are none where no application has
failed, and where one has failed, one is reported. -/
structure Tree.Accounted (st : State) (root : Tree Mark) : Prop where
  free : ∀ n ∈ root.subtrees, ∀ T, n.label.typing = some T → n.Succeeded →
    (T.apply st.subst).FailureFree
  reported : ∀ n ∈ root.subtrees, ¬n.Succeeded →
    ∃ n' ∈ n.subtrees, ∃ problem, failure? st.subst n' = some problem

/-- The marks in a block are accounted for if those in its statements are recorded. -/
theorem Tree.accounted_of_children {root : Tree Mark} (hkind : root.isApply = false)
    (hc : ∀ c ∈ root.children, c.Marked (Recorded st))
    (hfree : ∀ T, root.label.typing = some T → root.Succeeded → (T.apply st.subst).FailureFree) :
    root.Accounted st where
  free := by
    intro n hn T hT hsucc
    rw [subtrees_eq root, List.mem_cons, List.mem_flatMap] at hn
    rcases hn with rfl | ⟨c, hmem, hn⟩
    · exact hfree T hT hsucc
    · exact (hc c hmem n hn T hT).failureFree hsucc
  reported := by
    intro n hn hfail
    rw [subtrees_eq root, List.mem_cons, List.mem_flatMap] at hn
    rcases hn with rfl | ⟨c, hmem, hn⟩
    -- the root is no application, so if it did not succeed, one of its children did not
    · obtain ⟨c, hmem, hfail⟩ : ∃ c ∈ n.children, ¬c.Succeeded := by
        by_contra hno
        refine hfail (marked_iff.mpr
          ⟨fun T _ happ => absurd happ (by simp [hkind]), fun c hmem => ?_⟩)
        by_contra hfail
        exact hno ⟨c, hmem, hfail⟩
      exact exists_subtree_iff.mpr (Or.inr ⟨c, hmem, exists_failure (hc c hmem) hfail⟩)
    · exact exists_failure ((hc c hmem).of_mem hn) hfail

theorem Tree.Accounted.unaffected {root : Tree Mark} (h : root.Accounted st)
    (hsame : root.Unaffected st st') : root.Accounted st' where
  free := fun n hn T hT hsucc => by
    rw [hsame n hn T hT]
    exact h.free n hn T hT hsucc
  reported := fun n hn hfail => by
    obtain ⟨n', hn', problem, hreport⟩ := h.reported n hn hfail
    exact ⟨n', hn', problem, (failure?_unaffected (hsame.of_mem (mem_subtrees_trans hn hn'))).trans
      hreport⟩

/-- There are no reported failures exactly if no typing has a mark of failure. -/
theorem Tree.Accounted.failures_eq_nil_iff {root : Tree Mark} (h : root.Accounted st) :
    failures st.subst root = [] ↔ root.Marked fun _ T => (T.apply st.subst).FailureFree := by
  rw [failures, List.filterMap_eq_nil_iff]
  constructor
  · intro hnone n hn T hT
    by_contra hmark
    obtain ⟨n', hn', problem, hreport⟩ :=
      h.reported n hn fun hsucc => hmark (h.free n hn T hT hsucc)
    rw [hnone n' (mem_subtrees_trans hn hn')] at hreport
    cases hreport
  · intro hfree n hn
    by_contra hreport
    obtain ⟨problem, hreport⟩ := Option.ne_none_iff_exists'.mp hreport
    obtain ⟨-, ⟨T, hT, hfail⟩, -⟩ := failure?_eq_some hreport
    -- a mark at the head of a type stays there
    have hty := (Typing.all_iff.mp (hfree n hn T hT)).1
    cases ht : T.ty with
    | var v => simp [ht, Ty.isFailure, Term.isCon] at hfail
    | con name args =>
      rw [Typing.apply, Typing.mapTypes_ty, ht, Subst.apply_con, Ty.hasFailure,
        Term.mentions_con] at hty
      simp [ht, Ty.isFailure, Term.isCon] at hfail
      simp [hfail] at hty

/-- The marks of failure of a program are accounted for at the end of its check. -/
theorem checkInferred_accounted {withPrelude : Bool} {l : Span} {ns : List (Tree Span)}
    {root : Tree Mark} {scope : Defined} {st₁ resolved : State} {unresolved : Context}
    {event : Event} (h : Region Anywhere st)
    (hres : infer (Tree.block l ns).unmarked st = ((.ok T, root), st'))
    (hscope : builtins withPrelude (st'.logged event) = (scope, st₁))
    (hresolve : resolve [] scope root.label.span T.context st₁ = (.ok unresolved, resolved)) :
    root.Accounted resolved ∧
      root.Unaffected resolved (checkResolved scope root T unresolved resolved).state := by
  obtain ⟨-, hbelow⟩ := Tree.marked_iff.mp (infer_recorded _ h hres)
  obtain ⟨h₁, -⟩ := infer_unmarked_evolves h hres
  -- the typing of a block has a region of its own, apart from the marks below the block
  obtain ⟨M, hM, hspared, hT, hown⟩ := infer_block_apart h hres
  obtain ⟨hev, hdef⟩ := builtins_resolve_evolves hM hT hscope hresolve
  have hlabel : root.label.typing = some T := by
    have hlabel := infer_label (Tree.block l ns).unmarked st
    rwa [hres] at hlabel
  have hkind : root.isApply = false := by
    have herase := (infer_completes (Tree.block l ns).unmarked st).erase_eq
    rw [hres, Tree.erase_unmarked] at herase
    cases root <;> cases herase
    rfl
  refine ⟨Tree.accounted_of_children hkind (fun c hc => ?_) fun T' hT' hsucc => ?_, ?_⟩
  -- so resolving the free names of the program leaves the marks of its statements alone
  · exact ((hown c hc).unaffected hev hM.acyclic hspared).recorded (hbelow c hc)
  · obtain rfl := Option.some.inj (hlabel.symm.trans hT')
    exact resolve_failureFree h hres hsucc hscope hresolve
  -- reporting signatures leaves all of them alone, the mark of the root too
  · have hroot : root.Owned Anywhere resolved := (infer_unmarked_owned h hres).imp fun _ _ hT =>
      hT.imp fun _ ht => (ht.mono hev.count_le).anywhere
    exact hroot.unaffected_above hev.region.all (checkResolved_evolves hev.region.all hdef hroot)

/-- **A program has no reported failures exactly if no typing in it has a mark of failure, and every
failed application has a reported one beneath it.** -/
theorem check_failures_complete [Alphabet] {withPrelude : Bool} {source : String} {c : Checked}
    {events : List Event} (h : check withPrelude source = (.ok c, events)) :
    (failures c.state.subst c.root = [] ↔
      c.root.Marked fun _ T => (T.apply c.state.subst).FailureFree) ∧
    (∀ problem, problem ∈ failures c.state.subst c.root ↔
      problem ∈ c.problems ∧ ∃ function argument, problem.val = .application function argument) ∧
    ∀ n ∈ c.root.subtrees, n.isApply = true → ∀ T, n.label.typing = some T →
      T.ty.isFailure = true → ∃ n' ∈ n.subtrees, n'.isApply = true ∧ ∃ function argument,
        failure? c.state.subst n' = some ⟨.application function argument, n'.label.span⟩ ∧
        ⟨.application function argument, n'.label.span⟩ ∈ c.problems := by
  obtain ⟨tree, T, root, st, st', htree, hinfer, hcheck⟩ := check_run h
  obtain ⟨l, ns, rfl⟩ := parse_block htree
  obtain ⟨scope, st₁, unresolved, resolved, hscope, hresolve, rfl⟩ := checkInferred_run hcheck
  obtain ⟨hacc, hsame⟩ := checkInferred_accounted region_start hinfer hscope hresolve
  have hfailures := failures_unaffected hsame
  have hacc := hacc.unaffected hsame
  refine ⟨hacc.failures_eq_nil_iff, fun problem => ?_, fun n hn happ T' hT' hfail => ?_⟩
  · rw [mem_problems_checkResolved, ← hfailures]
    constructor
    · intro hmem
      obtain ⟨n, -, hreport⟩ := List.mem_filterMap.mp hmem
      obtain ⟨-, -, function, argument, rfl⟩ := failure?_eq_some hreport
      exact ⟨Or.inr hmem, function, argument, rfl⟩
    -- unbound names are the other problems, and are no applications
    · rintro ⟨⟨name, -, rfl⟩ | hmem, function, argument, hval⟩
      · cases hval
      · exact hmem
  -- an application with a mark of failure did not succeed, so a failure is reported beneath it
  · obtain ⟨n', hn', problem, hreport⟩ := hacc.reported n hn fun hsucc => by
      have := (Tree.marked_iff.mp hsucc).1 T' hT' happ
      rw [hfail] at this
      cases this
    obtain ⟨happ', -, function, argument, rfl⟩ := failure?_eq_some hreport
    refine ⟨n', hn', happ', function, argument, hreport, ?_⟩
    rw [mem_problems_checkResolved, ← hfailures]
    exact Or.inr (List.mem_filterMap.mpr ⟨n', Tree.mem_subtrees_trans hn hn', hreport⟩)

/-- An integer that is called, and the result called again: both applications fail, and one is
reported. -/
theorem check_failures_complete_cascade :
    ∃ c events, check true "1(2)(3)" = (.ok c, events) ∧
      ∃ n ∈ c.root.subtrees, n.isApply = true ∧ ∃ n' ∈ n.subtrees, n'.isApply = true ∧
        ∃ function argument, ⟨.application function argument, n'.label.span⟩ ∈ c.problems := by
  let tree : Tree Span := .block ⟨0, 7⟩ [.apply ⟨0, 7⟩
    (.apply ⟨0, 4⟩ (.int ⟨0, 1⟩ 1) (.tuple ⟨1, 4⟩ [.int ⟨2, 3⟩ 2])) (.tuple ⟨4, 7⟩ [.int ⟨5, 6⟩ 3])]
  have hparse : parse "1(2)(3)" = .ok tree := by cbv
  have hfails : ((checkTree true tree {}).1.toOption.map fun c => c.root.subtrees.any fun n =>
      n.isApply && n.label.typing.any (·.ty.isFailure)) = some true := by decide +kernel
  clear_value tree
  obtain ⟨c, hc, hfails⟩ := Option.map_eq_some_iff.mp hfails
  have hcheck := check_of_parse hparse hc
  obtain ⟨n, hn, hfail⟩ := List.any_eq_true.mp hfails
  rw [Bool.and_eq_true, Option.any_eq_true] at hfail
  obtain ⟨happ, T, hT, hfail⟩ := hfail
  obtain ⟨-, -, hreported⟩ := check_failures_complete hcheck
  obtain ⟨n', hn', happ', function, argument, -, hproblem⟩ := hreported n hn happ T hT hfail
  exact ⟨c, _, hcheck, n, hn, happ, n', hn', happ', function, argument, hproblem⟩

end LetTyping
