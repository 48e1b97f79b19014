import Mathlib
import LetTyping.Proofs.Derivation
import LetTyping.Proofs.Inversion
import LetTyping.Proofs.Region

/-!
# Inference is sound

Every solution of the bindings turns an inferred typing into one that the rules allow.  So does
every choice of types for the variables of the resolved typing, since these choices are the
solutions.

## Main definitions

* `Typing.instances` — the instances of a typing.
* `Sound` — every instance of a typing is derivable, and so are those of the typings it declares.

## Main results

* `equateAll_spec`, `bindParams_sound`, `ResolutionRun.settles` — the rules of inference against the
  typing rules.
* `sound_apply_iff` — soundness in terms of the solutions of the bindings.
* `infer_sound` — **the typing that inference finds is derivable, in all its instances.**
-/

namespace LetTyping

variable {α V : Type} {ι : V → Instances} {K : Nat → Prop} {st st' : State} {θ : Nat → Plain}

/-! ### Equations -/

/-- Making two types equal is most general. -/
theorem equate_spec (hs : st.subst.Acyclic) (span : Span) (description : String) (a b : Ty) :
    (equate span description a b st).2.subst.Acyclic ∧
      MostGeneral st.subst (fun θ => a.eval θ = b.eval θ) (equate span description a b st).1
        (equate span description a b st).2.subst := by
  obtain ⟨hs', hspec⟩ := unify_spec hs a b
  rw [equate_eq]
  rcases hres : (unify st.subst a b).1 with cause | _ <;> rw [hres] at hspec
  · exact ⟨hs', hspec⟩
  · exact ⟨hs', hspec⟩

/-- Making a type equal to some others is most general. -/
theorem equateAll_spec (hs : st.subst.Acyclic) (span : Span) (description : String) (a : Ty)
    (bs : List Ty) :
    (equateAll span description a bs st).2.subst.Acyclic ∧
      MostGeneral st.subst (fun θ => ∀ b ∈ bs, a.eval θ = b.eval θ)
        (equateAll span description a bs st).1 (equateAll span description a bs st).2.subst := by
  induction bs generalizing st with
  | nil => exact ⟨hs, fun θ => by simp [equateAll_nil]⟩
  | cons b bs ih =>
    obtain ⟨hs₁, hspec⟩ := equate_spec hs span description a b
    rw [equateAll_cons]
    rcases hres : equate span description a b st with ⟨problem | _, st₁⟩ <;>
      rw [hres] at hs₁ hspec
    -- types that are equal to all the others are equal to this one
    · exact ⟨hs₁, fun θ hθ hall => hspec θ hθ (hall b List.mem_cons_self)⟩
    · obtain ⟨hs₂, hrest⟩ := ih hs₁
      refine ⟨hs₂, ?_⟩
      simp only [List.forall_mem_cons]
      cases hout : (equateAll span description a bs st₁).1 with
      | error _ =>
        rw [hout] at hrest
        exact fun θ hθ hall => hrest θ ((hspec θ).mpr ⟨hθ, hall.1⟩) hall.2
      | ok _ =>
        rw [hout] at hrest
        intro θ
        rw [hrest θ, hspec θ, and_assoc]

/-! ### Parameters -/

/-- The types that parameters get are the types of all their uses. -/
theorem bindParams_sound (span : Span) (params : List String) :
    ∀ {context : Context} {st : State} {ts : List Ty} {c : Context} {st' : State}, Region K st →
      Uses.All (Owns K st) context → bindParams span params context st = (.ok (ts, c), st') →
      Solves θ st'.subst →
      Binds params (Uses.map (Ty.eval θ) context) (ts.map (Ty.eval θ))
        (Uses.map (Ty.eval θ) c) := by
  induction params with
  | nil =>
    intro context st ts c st' _ _ hres _
    rw [bindParams_nil] at hres
    cases hres
    exact .nil
  | cons param params ih =>
    intro context st ts c st' h hc hres hθ
    have h₀ := State.next_evolves h
    have hc₀ : Uses.All (Owns K st.next) context := fun e he t ht => (hc e he t ht).mono h₀.count_le
    have h₁ := equateAll_evolves span (parameterOf param) h₀.region (h.owns_var none) (hc₀.of param)
    obtain ⟨-, hspec⟩ := equateAll_spec h₀.region.acyclic span (parameterOf param)
      (.var ⟨st.count, none⟩) (Uses.of context param)
    rw [bindParams_cons, Context.uses_eq] at hres
    rcases heq : equateAll span (parameterOf param) (.var ⟨st.count, none⟩) (Uses.of context param)
      st.next with ⟨problem | _, st₁⟩ <;> rw [heq] at hres h₁ hspec
    · cases hres
    · have hc₁ : Uses.All (Owns K st₁) (Table.erase context param) :=
        Uses.All.erase (fun e he t ht => (hc₀ e he t ht).mono h₁.count_le) param
      have h₂ := (bindParams_evolves span params h₁.region hc₁).1
      simp only at hres
      rcases hrest : bindParams span params (Table.erase context param) st₁ with
        ⟨problem | ⟨ts', c'⟩, st₂⟩ <;> rw [hrest] at hres h₂
      · cases hres
      · cases hres
        -- later bindings only add to what must be solved, so this parameter still equals its uses
        have hall := ((hspec θ).mp (h₂.solves θ hθ)).2
        have hbinds := ih h₁.region hc₁ hrest hθ
        rw [Uses.map_erase] at hbinds
        refine .cons (fun t ht => ?_) hbinds
        rw [Uses.of_map] at ht
        obtain ⟨use, huse, rfl⟩ := List.mem_map.mp ht
        exact (hall use huse).symm

/-! ### Sound typings -/

/-- Every instance of a typing is derivable for a node, and so are the instances of the typings it
declares, for the values that the node declares. -/
inductive Sound : Tree α → Typing → Prop
  | intro {n : Tree α} {R : Typing}
      (derives : ∀ θ, Derives n (Uses.map (Ty.eval θ) R.context) (R.ty.eval θ) n.declared)
      (names : Table.keys R.defined = Table.keys n.declared)
      (values : ∀ e ∈ R.defined.zip n.declared, Sound e.2.2 e.1.2) : Sound n R

theorem sound_iff {n : Tree α} {R : Typing} :
    Sound n R ↔ (∀ θ, Derives n (Uses.map (Ty.eval θ) R.context) (R.ty.eval θ) n.declared) ∧
      Table.Rel (fun S v => Sound v S) R.defined n.declared := by
  rw [Table.Rel.iff_zip]
  constructor
  · rintro ⟨derives, names, values⟩
    exact ⟨derives, names, values⟩
  · rintro ⟨derives, names, values⟩
    exact ⟨derives, names, values⟩

/-- A solution does not tell a context from its resolved form. -/
theorem Solves.map_eval_apply {s : Subst} (hθ : Solves θ s) (hs : s.Acyclic) (c : Context) :
    Uses.map (Ty.eval θ) (Uses.map s.apply c) = Uses.map (Ty.eval θ) c := by
  rw [Uses.map_map]
  exact Uses.map_congr fun _ _ t _ => hθ.eval_apply hs t

/-- Giving types to all variables of a context is giving types to those of its resolved form. -/
theorem Subst.Acyclic.map_eval_extend {s : Subst} (hs : s.Acyclic) (c : Context) :
    Uses.map (Ty.eval (s.extend θ)) c = Uses.map (Ty.eval θ) (Uses.map s.apply c) := by
  rw [Uses.map_map]
  exact Uses.map_congr fun _ _ t _ => hs.eval_extend t

/-- The instances of a typing: the types that its variables may be given, for the context and the
type together. -/
def Typing.instances (R : Typing) : Instances := fun c t =>
  ∃ θ, c = Uses.map (Ty.eval θ) R.context ∧ t = R.ty.eval θ

/-- The instances of a resolved typing come from the solutions of the bindings. -/
theorem Typing.instances_apply {T : Typing} {s : Subst} (hs : s.Acyclic) {c : Uses Plain}
    {t : Plain} : (T.apply s).instances c t ↔
      ∃ η, Solves η s ∧ c = Uses.map (Ty.eval η) T.context ∧ t = T.ty.eval η := by
  rw [instances, Typing.apply, Typing.mapTypes_context, Typing.mapTypes_ty]
  constructor
  · rintro ⟨θ, rfl, rfl⟩
    exact ⟨_, hs.solves_extend θ, (hs.map_eval_extend _).symm, (hs.eval_extend _).symm⟩
  · rintro ⟨η, hη, rfl, rfl⟩
    exact ⟨η, (hη.map_eval_apply hs _).symm, (hη.eval_apply hs _).symm⟩

/-- **Soundness in terms of the solutions of the bindings.** -/
theorem sound_apply_iff {n : Tree α} {T : Typing} {s : Subst} (hs : s.Acyclic) :
    Sound n (T.apply s) ↔
      (∀ η, Solves η s → Derives n (Uses.map (Ty.eval η) T.context) (T.ty.eval η) n.declared) ∧
        Table.Rel (fun S v => Sound v (S.apply s)) T.defined n.declared := by
  rw [sound_iff, Typing.apply, Typing.mapTypes_defined, Table.Rel.mapValues_iff,
    Typing.mapTypes_context, Typing.mapTypes_ty]
  refine and_congr_left fun _ => ⟨fun h η hη => ?_, fun h θ => ?_⟩
  · have hd := h η
    rwa [hη.map_eval_apply hs, hη.eval_apply hs] at hd
  · have hd := h _ (hs.solves_extend θ)
    rwa [hs.map_eval_extend, hs.eval_extend] at hd

/-- More bindings leave a sound typing sound. -/
theorem Sound.mono {n : Tree α} {T : Typing} {s s' : Subst} (h : Sound n (T.apply s))
    (hs : s.Acyclic) (hs' : s'.Acyclic) (hsol : ∀ θ, Solves θ s' → Solves θ s) :
    Sound n (T.apply s') := by
  induction T using Typing.induction generalizing n with
  | mk ty context defined ih =>
    rw [sound_apply_iff hs] at h
    rw [sound_apply_iff hs']
    exact ⟨fun η hη => h.1 η (hsol η hη), h.2.imp fun e he v hv => ih e he hv⟩

/-- Replacing the variables of a sound typing leaves it sound. -/
theorem Sound.mapTypes {n : Tree α} {R : Typing} (h : Sound n R) {g : Ty → Ty}
    (hg : ∀ θ, ∃ ζ, ∀ t, Ty.eval θ (g t) = t.eval ζ) : Sound n (R.mapTypes g) := by
  induction R using Typing.induction generalizing n with
  | mk ty context defined ih =>
    obtain ⟨hderives, hdefined⟩ := sound_iff.mp h
    rw [sound_iff, Typing.mapTypes_defined, Table.Rel.mapValues_iff]
    refine ⟨fun θ => ?_, hdefined.imp fun e he v hv => ih e he hv⟩
    obtain ⟨ζ, hζ⟩ := hg θ
    have hcontext : Uses.map (Ty.eval θ) (Uses.map g context) = Uses.map (Ty.eval ζ) context := by
      rw [Uses.map_map]
      exact Uses.map_congr fun _ _ t _ => hζ t
    rw [Typing.mapTypes_context, Typing.mapTypes_ty, hζ, hcontext]
    exact hderives ζ

/-- A node that declares nothing. -/
theorem sound_of_derives {n : Tree α} (hn : n.declared = []) {ty : Ty} {c : Context} {s : Subst}
    (hs : s.Acyclic)
    (h : ∀ η, Solves η s → Derives n (Uses.map (Ty.eval η) c) (ty.eval η) []) :
    Sound n (Typing.apply s ⟨ty, c, []⟩) := by
  rw [sound_apply_iff hs, hn]
  exact ⟨h, .nil⟩

/-! ### Resolving names -/

/-- The declared typings are sound for the declared values. -/
def SoundDefined (st : State) (defined : Defined) (d : Table (Tree α)) : Prop :=
  Table.Rel (fun S v => Sound v (S.apply st.subst)) defined d

theorem SoundDefined.mono {defined : Defined} {d : Table (Tree α)} (h : SoundDefined st defined d)
    (hs : st.subst.Acyclic) (hev : Evolves K st st') : SoundDefined st' defined d :=
  Table.Rel.imp h fun _ _ _ hv => hv.mono hs hev.region.acyclic hev.solves

/-- An instance, evaluated, is an instance of the resolved typing. -/
theorem instantiate_sound (h : Region K st) {T : Typing} (hT : T.All (Owns Anywhere st))
    (η : Nat → Plain) :
    ∃ θ, (instantiate T st).1.ty.eval η = (T.apply st.subst).ty.eval θ ∧
      Uses.map (Ty.eval η) (instantiate T st).1.context =
        Uses.map (Ty.eval θ) (T.apply st.subst).context := by
  obtain ⟨-, -, -, heq⟩ := instantiate_evolves h hT
  refine ⟨fun n => η ((T.apply st.subst).slot st.count n), ?_, ?_⟩
  · rw [heq, Typing.renumber, Typing.mapTypes_ty, Typing.eval_renumber]
  · rw [heq, Typing.renumber, Typing.mapTypes_context, Uses.map_map]
    exact Uses.map_congr fun _ _ t _ => Typing.eval_renumber η t

/-- The declared typings have no other instances than what is declared. -/
def Allowed (ι : V → Instances) (st : State) (defined : Defined) (d : Table V) : Prop :=
  Table.Rel (fun S v => ∀ c t, (S.apply st.subst).instances c t → ι v c t) defined d

theorem Allowed.mono {defined : Defined} {d : Table V} (h : Allowed ι st defined d)
    (hs : st.subst.Acyclic) (hev : Evolves K st st') : Allowed ι st' defined d :=
  Table.Rel.imp h fun _ _ _ hv c t hct => by
    obtain ⟨η, hη, rfl, rfl⟩ := (Typing.instances_apply hev.region.acyclic).mp hct
    exact hv _ _ ((Typing.instances_apply hs).mpr ⟨η, hev.solves η hη, rfl, rfl⟩)

/-- **Names are resolved to instances of what they stand for.** -/
theorem ResolutionRun.settles {defined : Defined} {span : Span} {depth : Nat} {chain : List String}
    {context out : Context} {res : Outcome Unit Context × State} {d : Table V}
    (hrun : ResolutionRun defined span depth chain context out st res) (h : Region K st)
    (hdef : ∀ e ∈ defined, e.2.All (Owns Anywhere st)) (hc : Uses.All (Owns K st) context)
    (hallowed : Allowed ι st defined d)
    (hok : res.1.1 = .ok ()) (hθ : Solves θ res.2.subst) :
    Settles ι d (Uses.map (Ty.eval θ) context) (Uses.map (Ty.eval θ) out)
      (Uses.map (Ty.eval θ) res.1.2) := by
  induction hrun with
  | nil => exact .nil
  | @undeclared _ _ name _ _ _ _ _ hget _ ih =>
    rw [Uses.all_cons] at hc
    have hrest := ih h hdef hc.2 hallowed hok hθ
    rw [Uses.map_passOut] at hrest
    rcases Table.Rel.get? hallowed name with ⟨-, hnone⟩ | ⟨S, v, hS, -, -⟩
    · exact .undeclared hnone hrest
    · rw [hget] at hS
      cases hS
  | recursive => cases hok
  | clash => cases hok
  | fail => cases hok
  | @declared _ _ name uses context out st S st₁ out₁ st₂ res hget _ heq hinner hrest ih ihrest =>
    rw [Uses.all_cons] at hc
    obtain ⟨h₁, hc₁⟩ := instance_evolves h hdef hget hc.1 heq
    have hdef₁ : ∀ e ∈ defined, e.2.All (Owns Anywhere st₁) := fun e he =>
      (hdef e he).imp fun t ht => ht.mono h₁.count_le
    obtain ⟨h₂, -⟩ := hinner.evolves h₁.region hdef₁ hc₁
    have hdef₂ : ∀ e ∈ defined, e.2.All (Owns Anywhere st₂) := fun e he =>
      (hdef₁ e he).imp fun t ht => ht.mono h₂.count_le
    have hc₂ : Uses.All (Owns K st₂) context := fun e he t ht =>
      (hc.2 e he t ht).mono (le_trans h₁.count_le h₂.count_le)
    obtain ⟨h₃, -⟩ := hrest.evolves h₂.region hdef₂ hc₂
    have hallowed₁ := hallowed.mono h.acyclic h₁
    have hallowed₂ := hallowed₁.mono h₁.region.acyclic h₂
    have hθ₂ := h₃.solves θ hθ
    have hθ₁ := h₂.solves θ hθ₂
    rcases Table.Rel.get? hallowed name with ⟨hnone, -⟩ | ⟨S', v, hS, hv, hSv⟩
    · rw [hget] at hnone
      cases hnone
    rw [hget, Option.some.injEq] at hS
    subst hS
    obtain ⟨ζ, hty, hcontext⟩ := instantiate_sound h (hdef _ (Table.mem_of_get? hget)) θ
    -- its type is the type of all uses
    have hs : ((instantiate S st).2.logged (.resolved name uses.length)).subst.Acyclic := h.acyclic
    obtain ⟨-, hspec⟩ := equateAll_spec hs span (useOf name) (instantiate S st).1.ty uses
    rw [heq] at hspec
    refine .declared hv (hSv _ _ ⟨ζ, hcontext, hty⟩) (fun u hu => ?_)
      (ih h₁.region hdef₁ hc₁ hallowed₁ rfl hθ₂) (ihrest h₂.region hdef₂ hc₂ hallowed₂ hok hθ)
    obtain ⟨use, huse, rfl⟩ := List.mem_map.mp hu
    exact (((hspec θ).mp hθ₁).2 use huse).symm

theorem SoundDefined.allowed {defined : Defined} {d : Table (Tree α)}
    (h : SoundDefined st defined d) : Allowed Tree.instances st defined d :=
  Table.Rel.imp h fun _ _ _ hv c t hct => by
    obtain ⟨θ, rfl, rfl⟩ := hct
    exact ⟨_, (sound_iff.mp hv).1 θ⟩

/-! ### Statements -/

/-- A statement adds its declarations and the uses of undeclared names. -/
theorem absorb_sound {sofar stmt T : Typing} {span : Span} (h : Region Anywhere st)
    (hsofar : sofar.All (Owns Anywhere st)) (hstmt : stmt.All (Owns Anywhere st))
    {n : Tree α} {d : Table (Tree α)} (hd : SoundDefined st sofar.defined d)
    (hn : Sound n (stmt.apply st.subst)) (hres : absorb sofar span stmt st = (.ok T, st')) :
    SoundDefined st' T.defined (Table.insertAll d n.declared) ∧
      ∀ η, Solves η st'.subst → ∃ c, Derives n c (T.ty.eval η) n.declared ∧
        Resolves (Table.insertAll d n.declared) c (Uses.map (Ty.eval η) sofar.context)
          (Uses.map (Ty.eval η) T.context) := by
  obtain ⟨h₁, hcopy, -, heq⟩ := instantiate_evolves h.above hstmt
  obtain ⟨-, hcontext, hdefined⟩ := Typing.all_iff.mp hcopy
  -- the instance declares what the statement declares
  have hsound₁ : SoundDefined (instantiate stmt st).2
      (Table.insertAll sofar.defined (instantiate stmt st).1.defined)
      (Table.insertAll d n.declared) := by
    refine Table.Rel.insertAll (hd.mono h.acyclic h₁) ?_
    rw [heq, Typing.renumber, Typing.mapTypes_defined, Table.Rel.mapValues_iff]
    refine (sound_iff.mp hn).2.imp fun e _ v hv => ?_
    rw [Typing.apply, Typing.mapTypes_mapTypes]
    refine hv.mapTypes fun θ => ⟨fun m => st.subst.extend θ ((stmt.apply st.subst).slot st.count m),
      fun t => ?_⟩
    rw [Function.comp_apply, ← h.acyclic.eval_extend, Typing.eval_renumber]
  have hdef : ∀ e ∈ Table.insertAll sofar.defined (instantiate stmt st).1.defined,
      e.2.All (Owns Anywhere (instantiate stmt st).2) := by
    intro e he
    rcases Table.mem_insertAll he with he | he
    · exact ((Typing.all_iff.mp hsofar).2.2 e he).imp fun t ht => ht.mono h₁.count_le
    · exact (hdefined e he).imp fun t ht => ht.anywhere
  obtain ⟨result, out, st₁, hrun, hrun_eq⟩ := absorb_run sofar span stmt st
  obtain ⟨h₂, -⟩ := hrun.evolves h₁.region hdef hcontext
  rw [hrun_eq] at hres
  cases result with
  | error problem => cases hres
  | ok _ =>
    cases hres
    refine ⟨hsound₁.mono h₁.region.acyclic h₂, fun η hη => ?_⟩
    obtain ⟨θ, hty, hctx⟩ := instantiate_sound h hstmt η
    have hderives := (sound_iff.mp hn).1 θ
    rw [← hty, ← hctx] at hderives
    exact ⟨_, hderives, resolves_iff_settles.mpr
      (hrun.settles h₁.region hdef hcontext hsound₁.allowed rfl hη)⟩

/-! ### Nodes -/

section Nodes

/-- Where inference finds a typing and no application fails, the typing is sound. -/
def InfersSoundly (n : Tree Span) : Prop :=
  ∀ {st : State}, Region Anywhere st → ∀ {T t' st'}, infer n.unmarked st = ((.ok T, t'), st') →
    t'.Succeeded → Sound n (T.apply st'.subst)

/-- Inference of a tree without typings touches only what it allocates, and finds typings over
that. -/
theorem infer_unmarked_evolves {n : Tree Span} (h : Region Anywhere st)
    {r : Except Problem Typing} {t' : Tree Mark} (hres : infer n.unmarked st = ((r, t'), st')) :
    Evolves (st.count ≤ ·) st st' ∧ ∀ T, r = .ok T → T.All (Owns (st.count ≤ ·) st') := by
  obtain ⟨hev, hown⟩ := infer_evolves n.unmarked h (Tree.marked_unmarked n)
  obtain ⟨-, hT⟩ := hown _ h.above (Tree.marked_unmarked n)
  rw [hres] at hev hT
  exact ⟨hev, hT⟩

theorem inferAll_sound (ns : List (Tree Span)) (ih : ∀ n ∈ ns, InfersSoundly n) :
    ∀ {st : State}, Region Anywhere st → ∀ {Ts ts' st'},
      inferAll (ns.map Tree.unmarked) st = ((.ok Ts, ts'), st') → (∀ t' ∈ ts', t'.Succeeded) →
      Evolves (st.count ≤ ·) st st' ∧ ∀ η, Solves η st'.subst →
        DerivesAll ns (Ts.map fun T => Uses.map (Ty.eval η) T.context)
          (Ts.map fun T => T.ty.eval η) := by
  induction ns with
  | nil =>
    intro st h Ts ts' st' hres _
    rw [List.map_nil, inferAll_nil] at hres
    cases hres
    exact ⟨h.above.evolves_refl, fun η _ => .nil⟩
  | cons n ns ihs =>
    intro st h Ts ts' st' hres hsucc
    rw [List.forall_mem_cons] at ih
    obtain ⟨T, t₁, st₁, Ts, ts₁, hn, hns, rfl, rfl⟩ := inferAll_cons_ok hres
    rw [List.forall_mem_cons] at hsucc
    obtain ⟨h₁, -⟩ := infer_unmarked_evolves h hn
    obtain ⟨h₂, hrest⟩ := ihs ih.2 (h₁.region_of h) hns hsucc.2
    refine ⟨h₁.step h₂, fun η hη => ?_⟩
    -- types that solve the bindings in the end solve those after the first node
    have hsound := ih.1 h hn hsucc.1
    rw [sound_apply_iff h₁.region.acyclic] at hsound
    exact .cons (hsound.1 η (h₂.solves η hη)) (hrest η hη)

theorem inferStatements_sound (ns : List (Tree Span)) (ih : ∀ n ∈ ns, InfersSoundly n) :
    ∀ {sofar : Typing} {st : State} {d : Table (Tree Span)}, Region Anywhere st →
      sofar.All (Owns Anywhere st) → SoundDefined st sofar.defined d → ∀ {T ts' st'},
      inferStatements sofar (ns.map Tree.unmarked) st = ((.ok T, ts'), st') →
      (∀ t' ∈ ts', t'.Succeeded) →
      Evolves (st.count ≤ ·) st st' ∧ SoundDefined st' T.defined (Tree.declaredFrom d ns) ∧
        ∀ η, Solves η st'.subst →
          DerivesStatements ns (Uses.map (Ty.eval η) sofar.context) (sofar.ty.eval η) d
            (Uses.map (Ty.eval η) T.context) (T.ty.eval η) (Tree.declaredFrom d ns) := by
  induction ns with
  | nil =>
    intro sofar st d h _ hd T ts' st' hres _
    rw [List.map_nil, inferStatements_nil] at hres
    cases hres
    exact ⟨h.above.evolves_refl, hd, fun η _ => .nil⟩
  | cons n ns ihs =>
    intro sofar st d h hsofar hd T ts' st' hres hsucc
    rw [List.forall_mem_cons] at ih
    have h₀ := State.logged_evolves h.above
      (.statement n.unmarked.kind n.unmarked.label.span.start)
    obtain ⟨raw, t₁, st₁, sofar', st₂, ts₁, hn, habs, hns, rfl⟩ := inferStatements_cons_ok hres
    rw [List.forall_mem_cons] at hsucc
    obtain ⟨h₁, hraw⟩ := infer_unmarked_evolves (h₀.region_of h) hn
    replace h₁ := h₀.step h₁
    have hsofar₁ : sofar.All (Owns Anywhere st₁) := hsofar.imp fun t ht => ht.mono h₁.count_le
    have hraw₁ : raw.All (Owns Anywhere st₁) := (hraw raw rfl).imp fun t ht => ht.anywhere
    obtain ⟨h₂, hown₂⟩ := absorb_evolves (h₁.region_of h) hsofar₁ hraw₁ t₁.label.span
    rw [habs] at h₂ hown₂
    have h₁₂ := h₁.step h₂
    -- the statement is derived, and its names are settled by what is declared so far
    obtain ⟨hd₂, hderives⟩ := absorb_sound (h₁.region_of h) hsofar₁ hraw₁
      (hd.mono h.acyclic h₁) (ih.1 (h₀.region_of h) hn hsucc.1) habs
    obtain ⟨h₃, hd₃, hrest⟩ := ihs ih.2 (h₁₂.region_of h)
      (hown₂ Anywhere (h₁.region_of h) hsofar₁ sofar' rfl) hd₂ hns hsucc.2
    refine ⟨h₁₂.step h₃, hd₃, fun η hη => ?_⟩
    obtain ⟨c, hn', hc⟩ := hderives η (h₃.solves η hη)
    exact .cons hn' hc (hrest η hη)

/-- A function applied to its argument. -/
theorem infersSoundly_apply {l : Span} {fn arg : Tree Span} (ihf : InfersSoundly fn)
    (iha : InfersSoundly arg) : InfersSoundly (.apply l fn arg) := by
  intro st h T t' st' hres hsucc
  obtain ⟨fnRaw, fn', st₁, argRaw, arg', st₂, hfn, harg, happ, rfl⟩ := infer_apply_ok hres
  obtain ⟨hroot, hchildren⟩ := Tree.succeeded_iff.mp hsucc
  obtain ⟨h₁, hfnRaw⟩ := infer_unmarked_evolves h hfn
  have hfnRaw₁ := (hfnRaw fnRaw rfl).imp fun t ht => ht.anywhere
  obtain ⟨h₂, hcopy, -, -⟩ := instantiate_evolves h₁.region hfnRaw₁
  have h₁₂ := h₁.trans h₂
  obtain ⟨h₃, hargRaw⟩ := infer_unmarked_evolves (h₁₂.region_of h) harg
  have h₁₃ := h₁₂.step h₃
  have hargRaw₃ := (hargRaw argRaw rfl).imp fun t ht => ht.anywhere
  obtain ⟨h₄, hcopy', -, -⟩ := instantiate_evolves h₁₃.region hargRaw₃
  obtain ⟨hs', hspec⟩ := unify_spec h₄.region.acyclic (instantiate fnRaw st₁).1.ty
    (.arrow (instantiate argRaw st₂).1.ty (.var ⟨(instantiate argRaw st₂).2.count, none⟩))
  rw [applyTypings_eq] at happ
  rcases hunify : (unify (instantiate argRaw st₂).2.subst (instantiate fnRaw st₁).1.ty
    (.arrow (instantiate argRaw st₂).1.ty
      (.var ⟨(instantiate argRaw st₂).2.count, none⟩))).1 with cause | _ <;>
    rw [hunify] at happ hspec
  · -- the mark of a failed application
    cases happ
    exact absurd (hroot _ rfl rfl) (by simp [Typing.closed, Ty.failure, Ty.isFailure, Term.isCon])
  · cases happ
    refine sound_of_derives rfl hs' fun η hη => ?_
    obtain ⟨-, heq⟩ := (hspec η).mp hη
    obtain ⟨θ, hty, hcontext⟩ := instantiate_sound h₁.region hfnRaw₁ η
    obtain ⟨θ', hty', hcontext'⟩ := instantiate_sound h₁₃.region hargRaw₃ η
    have hf := (sound_iff.mp (ihf h hfn (hchildren fn' (by simp [Tree.children])))).1 θ
    have ha := (sound_iff.mp (iha (h₁₂.region_of h) harg
      (hchildren arg' (by simp [Tree.children])))).1 θ'
    rw [← hty, ← hcontext, heq, Ty.eval_arrow] at hf
    rw [← hty', ← hcontext'] at ha
    rw [Context.union_eq, Uses.map_union]
    exact .apply hf ha

/-- A function with parameters. -/
theorem infersSoundly_fn {l : Span} {params : List String} {body : Tree Span}
    (ih : InfersSoundly body) : InfersSoundly (.fn l params body) := by
  intro st h T t' st' hres hsucc
  obtain ⟨raw, body', st₁, ts, c, hbody, hbind, rfl, rfl⟩ := infer_fn_ok hres
  have hchildren := (Tree.succeeded_iff.mp hsucc).2
  obtain ⟨h₁, hraw⟩ := infer_unmarked_evolves h hbody
  have hraw₁ := (hraw raw rfl).imp fun t ht => ht.anywhere
  obtain ⟨h₂, hcopy, -, -⟩ := instantiate_evolves h₁.region hraw₁
  obtain ⟨-, hcontext, -⟩ := Typing.all_iff.mp hcopy
  have h₃ := (bindParams_evolves l params h₂.region hcontext).1
  rw [hbind] at h₃
  refine sound_of_derives rfl h₃.region.acyclic fun η hη => ?_
  -- types for the copy's variables give types for those of the body, which is derived at them
  obtain ⟨θ, hty, hctx⟩ := instantiate_sound h₁.region hraw₁ η
  have hb := (sound_iff.mp (ih h hbody (hchildren body' (by simp [Tree.children])))).1 θ
  rw [← hty, ← hctx] at hb
  rw [Ty.eval_arrow, Ty.eval_product]
  exact .fn hb (bindParams_sound l params h₂.region hcontext hbind hη)

/-- Inference is sound for every node. -/
theorem infersSoundly (n : Tree Span) : InfersSoundly n := by
  induction n using Tree.induction with
  | apply l fn arg ihf iha => exact infersSoundly_apply ihf iha
  | fn l params body ih => exact infersSoundly_fn ih
  | int l value =>
    intro st h T t' st' hres _
    rw [Tree.unmarked_int, infer_int rfl] at hres
    cases hres
    refine sound_of_derives rfl h.acyclic fun η _ => ?_
    rw [Ty.eval_int]
    exact .int
  | var l name =>
    intro st h T t' st' hres _
    rw [Tree.unmarked_var, infer_var rfl] at hres
    cases hres
    exact sound_of_derives rfl h.acyclic fun η _ => .var
  | array l elems _ =>
    intro st h T t' st' hres _
    rw [Tree.unmarked_array, infer_array rfl] at hres
    cases hres
  | assign l name value _ =>
    intro st h T t' st' hres _
    rw [Tree.unmarked_assign, infer_assign rfl] at hres
    cases hres
  | tuple l elems ih =>
    intro st h T t' st' hres hsucc
    obtain ⟨Ts, elems', hall, rfl, rfl⟩ := infer_tuple_ok hres
    have hchildren := (Tree.succeeded_iff.mp hsucc).2
    obtain ⟨h₁, hderives⟩ := inferAll_sound elems ih h hall hchildren
    refine sound_of_derives rfl h₁.region.acyclic fun η hη => ?_
    rw [Typing.map_foldl_union, Ty.eval_product, List.map_map]
    exact .tuple (hderives η hη)
  | decl l name value ih =>
    intro st h T t' st' hres hsucc
    obtain ⟨raw, value', hvalue, rfl, rfl⟩ := infer_decl_ok hres
    have hchildren := (Tree.succeeded_iff.mp hsucc).2
    have hsound := ih h hvalue (hchildren value' (by simp [Tree.children]))
    obtain ⟨h₁, -⟩ := infer_unmarked_evolves h hvalue
    rw [sound_apply_iff h₁.region.acyclic]
    -- what is declared is sound as the value is, at all its instances
    refine ⟨fun η _ => ?_, .cons ⟨rfl, hsound⟩ .nil⟩
    rw [declTyping, Ty.eval_unit]
    exact .decl ((sound_iff.mp hsound).1 η)
  | ret l value ih =>
    intro st h T t' st' hres hsucc
    obtain ⟨value', hvalue, rfl⟩ := infer_ret_ok hres
    have hchildren := (Tree.succeeded_iff.mp hsucc).2
    have hsound := ih h hvalue (hchildren value' (by simp [Tree.children]))
    rw [sound_iff] at hsound ⊢
    exact ⟨fun θ => .ret (hsound.1 θ), hsound.2⟩
  | block l stmts ih =>
    intro st h T t' st' hres hsucc
    obtain ⟨stmts', hstmts, rfl⟩ := infer_block_ok hres
    have hchildren := (Tree.succeeded_iff.mp hsucc).2
    obtain ⟨h₁, hd, hderives⟩ := inferStatements_sound stmts ih h
      Owns.closed_unit (d := []) .nil hstmts hchildren
    rw [sound_apply_iff h₁.region.acyclic]
    refine ⟨fun η hη => .block ?_, hd⟩
    have hderives := hderives η hη
    rwa [Typing.closed, Ty.eval_unit] at hderives

end Nodes

/-- **The typing that inference finds is derivable, in all its instances**, if no application has
failed.  The resolved typing itself is one of them. -/
theorem infer_sound {n : Tree Span} {T : Typing} {t' : Tree Mark} {st' : State}
    (hres : infer n.unmarked {} = ((.ok T, t'), st')) (hsucc : t'.Succeeded) :
    Derives n (Uses.map Ty.untagged (T.apply st'.subst).context) (T.apply st'.subst).ty.untagged
        n.declared ∧
      Sound n (T.apply st'.subst) := by
  have hsound := infersSoundly n region_start hres hsucc
  exact ⟨(sound_iff.mp hsound).1 .var, hsound⟩

/-- A declared function, used at two types. -/
theorem infer_sound_identity :
    let program : Tree Span := .block ⟨0, 0⟩
      [.decl ⟨0, 0⟩ "id" (.fn ⟨0, 0⟩ ["x"] (.var ⟨0, 0⟩ "x")),
        .apply ⟨0, 0⟩ (.var ⟨0, 0⟩ "id") (.tuple ⟨0, 0⟩ [.int ⟨0, 0⟩ 1]),
        .apply ⟨0, 0⟩ (.var ⟨0, 0⟩ "id") (.tuple ⟨0, 0⟩ [.var ⟨0, 0⟩ "y"])]
    ∃ T t' st', infer program.unmarked {} = ((.ok T, t'), st') ∧ t'.Succeeded ∧
      Derives program (Uses.map Ty.untagged (T.apply st'.subst).context)
          (T.apply st'.subst).ty.untagged program.declared ∧
        Sound program (T.apply st'.subst) := by
  intro program
  have hok : (infer program.unmarked {}).1.1.isOk = true := by cbv
  have hsucc : (infer program.unmarked {}).1.2.Succeeded := of_decide_eq_true (by cbv)
  rcases hres : infer program.unmarked {} with ⟨⟨problem | T, t'⟩, st'⟩ <;> rw [hres] at hok hsucc
  · cases hok
  · exact ⟨T, t', st', rfl, hsucc, infer_sound hres hsucc⟩

end LetTyping
