import LetTyping.Proofs.Checking

/-!
# The form of inferred types

The constructors of types have no declared arities.  The parser gives every application a tuple as
its argument, and the rules of inference put a tuple type before every arrow and an arrow behind
every mark of failure.  Unification and substitution take types apart and put them together again
without changing what stands at which place, so these are the only forms that types ever have: in
the typings that nodes keep and in the bindings, resolved or not, and also where inference fails.

## Main definitions

* `Term.Formed` — the forms of types.
* `Term.Within` — a term stands somewhere in another one.
* `Tree.Packed` — every application in a tree has a tuple as its argument.
* `Tree.annotated` — a program with the typings that its inference finds.
* `Analyzed` — the states that come from the inference of a program.
* `Held` — the types of the nodes and of the bindings, resolved or not.

## Main results

* `infer_formed` — inference keeps to the forms, if it fails or not.
* `resolve_formed`, `signatures_formed` — so do resolving names and reporting signatures.
* `analyzed_formed` — **all types that the analysis of a program holds have one of the forms, and
  every mark of failure names a function and an argument.**
-/

namespace LetTyping

/-! ### Forms -/

namespace Term

variable {V W : Type}

/-- The forms of types: the parameters of a function are a tuple, and a mark of failure has the type
of a function behind the type that was applied. -/
inductive Formed : Term V → Prop
  | var (v : V) : Formed (.var v)
  | int : Formed (.con "Int" [])
  | unit : Formed (.con "Unit" [])
  | product {ts : List (Term V)} : (∀ t ∈ ts, Formed t) → Formed (.con Ty.productName ts)
  | arrow {params : List (Term V)} {result : Term V} : (∀ t ∈ params, Formed t) → Formed result →
      Formed (.con Ty.arrowName [.con Ty.productName params, result])
  | failure {fn : Term V} {args : List (Term V)} {result : Term V} : Formed fn →
      (∀ t ∈ args, Formed t) → Formed result →
      Formed (.con Ty.failureName [fn, .con Ty.arrowName [.con Ty.productName args, result]])

/-- The term `s` stands somewhere in a term. -/
inductive Within (s : Term V) : Term V → Prop
  | here : Within s s
  | arg {name : String} {args : List (Term V)} {a : Term V} : a ∈ args → Within s a →
      Within s (.con name args)

namespace Formed

variable {t : Term V}

theorem args {name : String} {args : List (Term V)} (h : Formed (.con name args)) :
    ∀ a ∈ args, Formed a := by
  cases h with
  | int | unit => exact fun _ ha => absurd ha List.not_mem_nil
  | product hts => exact hts
  | arrow hparams hresult => simpa using ⟨.product hparams, hresult⟩
  | failure hfn hargs hresult => simpa using ⟨hfn, .arrow hargs hresult⟩

theorem within {s : Term V} (h : t.Formed) (hs : Within s t) : s.Formed := by
  induction hs with
  | here => exact h
  | arg ha _ ih => exact ih (h.args _ ha)

/-- A function type has a tuple of parameters and a result. -/
theorem arrow_args {args : List (Term V)} (h : Formed (.con Ty.arrowName args)) :
    ∃ params result, args = [.con Ty.productName params, result] := by
  generalize ht : Term.con Ty.arrowName args = t at h
  cases h with
  | arrow => exact ⟨_, _, (Term.con.inj ht).2⟩
  | var => cases ht
  | _ => exact absurd (Term.con.inj ht).1 (by decide)

/-- A mark of failure has a type that was applied and the function type it was tried at. -/
theorem failure_args {args : List (Term V)} (h : Formed (.con Ty.failureName args)) :
    ∃ fn params result, args = [fn, .con Ty.arrowName [.con Ty.productName params, result]] := by
  generalize ht : Term.con Ty.failureName args = t at h
  cases h with
  | failure => exact ⟨_, _, _, (Term.con.inj ht).2⟩
  | var => cases ht
  | _ => exact absurd (Term.con.inj ht).1 (by decide)

/-- Types in the place of variables leave the form as it is. -/
theorem bind (h : t.Formed) {f : V → Term W} (hf : ∀ v, (f v).Formed) : (t.bind f).Formed := by
  induction h with
  | var v => exact hf v
  | int => exact .int
  | unit => exact .unit
  | product _ ih =>
    rw [bind_con]
    exact .product (List.forall_mem_map.mpr ih)
  | arrow _ _ ih ihr =>
    simp only [bind_con, List.map_cons, List.map_nil]
    exact .arrow (List.forall_mem_map.mpr ih) ihr
  | failure _ _ _ ihf ih ihr =>
    simp only [bind_con, List.map_cons, List.map_nil]
    exact .failure ihf (List.forall_mem_map.mpr ih) ihr

/-- Only the types in the place of variables that occur matter. -/
theorem bind_of_vars (h : t.Formed) {f : V → Term V} (hf : ∀ v ∈ t.vars, (f v).Formed) :
    (t.bind f).Formed := by
  classical
  have hcongr : t.bind f = t.bind fun v => if (f v).Formed then f v else .var v :=
    bind_congr fun v hv => (if_pos (hf v hv)).symm
  rw [hcongr]
  refine h.bind fun v => ?_
  split
  · assumption
  · exact .var v

theorem map (h : t.Formed) (f : V → W) : (t.map f).Formed := h.bind fun v => .var (f v)

theorem hereditary : Hereditary (fun _ => True) (Formed (V := TVar)) where
  var := fun _ _ => trivial
  args := fun _ _ h => h.args

end Formed

end Term

/-- The two parts of a mark of failure can be read off. -/
theorem Term.Formed.failureParts {t : Ty} (h : t.Formed) (hfail : t.isFailure = true) :
    ∃ parts, t.failureParts? = some parts := by
  cases t with
  | var v => cases hfail
  | con name args =>
    obtain rfl : name = Ty.failureName := of_decide_eq_true hfail
    obtain ⟨fn, params, result, rfl⟩ := h.failure_args
    exact ⟨_, rfl⟩

/-- The bindings of a substitution have the forms of types. -/
def Subst.Formed (s : Subst) : Prop := ∀ (v : Nat) (t : Ty), s[v]? = some t → t.Formed

namespace Subst.Formed

variable {s : Subst} {t : Ty}

/-- Where bindings are followed to an end, each variable of a type is replaced by a type that has
the form. -/
theorem leadsTo_bind (h : s.Formed) {u : Ty} (hlead : s.LeadsTo t u) :
    u = t.bind (fun v => (s.follow? (.var v)).getD (.var v)) ∧
      ∀ v ∈ t.vars, ((s.follow? (.var v)).getD (.var v)).Formed := by
  induction hlead using Subst.LeadsTo.induction with
  | unbound v hv =>
    have hfollow : s.follow? (.var v) = some (.var v) := Subst.follow?_eq_some_iff.mpr (.unbound hv)
    simp [hfollow, Term.Formed.var]
  -- the type that the variable is bound to has the form, and keeps it when its own variables are
  -- replaced
  | bound v t u hv hlead ih =>
    have hfollow : s.follow? (.var v) = some u := Subst.follow?_eq_some_iff.mpr (.bound hv hlead)
    have hu : u.Formed := ih.1 ▸ (h v.id t hv).bind_of_vars ih.2
    simp [hfollow, hu]
  | con name ts us hargs ih =>
    clear hargs
    rw [Term.bind_con, Term.vars_con]
    -- the arguments are followed one by one, and the variables of the type are those of all of them
    induction ih with
    | nil => simp
    | cons hhead _ ihs =>
      obtain ⟨-, rfl, hvars⟩ := hhead
      obtain ⟨heq, hrest⟩ := ihs
      refine ⟨by rw [List.map_cons, (Term.con.inj heq).2], fun v hv => ?_⟩
      rw [List.flatMap_cons, List.mem_append] at hv
      exact hv.elim (hvars v) (hrest v)

theorem leadsTo (h : s.Formed) {u : Ty} (hlead : s.LeadsTo t u) (ht : t.Formed) : u.Formed := by
  obtain ⟨rfl, hvars⟩ := h.leadsTo_bind hlead
  exact ht.bind_of_vars hvars

theorem applyWithin (h : s.Formed) (depth : Nat) (ht : t.Formed) :
    (s.applyWithin depth t).Formed := by
  induction depth generalizing t with
  -- here bindings are followed without a bound; where this does not end, the variable stays
  | zero =>
    refine ht.bind fun v => ?_
    cases hv : s[v.id]? with
    | none => exact .var v
    | some bound =>
      cases hfollow : s.follow? bound with
      | none =>
        simp only [hfollow]
        exact .var v
      | some u =>
        simp only [hfollow]
        exact h.leadsTo (Subst.follow?_eq_some_iff.mp hfollow) (h v.id bound hv)
  | succ depth ih =>
    refine ht.bind fun v => ?_
    cases hv : s[v.id]? with
    | none => exact .var v
    | some bound => exact ih (h v.id bound hv)

theorem apply (h : s.Formed) (ht : t.Formed) : (s.apply t).Formed := h.applyWithin s.size ht

theorem apply_typing (h : s.Formed) {T : Typing} (hT : T.All Term.Formed) :
    (T.apply s).All Term.Formed := by
  rw [Typing.apply, Typing.all_mapTypes]
  exact hT.imp fun _ ht => h.apply ht

theorem insert (h : s.Formed) (ht : t.Formed) (v : Nat) : Subst.Formed (s.insert v t) := by
  intro w u hw
  rw [Std.ExtTreeMap.getElem?_insert] at hw
  split at hw
  · exact Option.some.inj hw ▸ ht
  · exact h w u hw

theorem unify (h : s.Formed) {a b : Ty} (ha : a.Formed) (hb : b.Formed) :
    Subst.Formed (LetTyping.unify s a b).2 := fun v t =>
  (unify_frame Term.Formed.hereditary (fun v t _ => h v t) ha hb).1 v t trivial

theorem empty : Subst.Formed ∅ := fun v t hv => by simp at hv

end Subst.Formed

/-- Variables alone are put in the place of variables. -/
theorem renumbering_formed (first : Nat) (vs : List TVar) : (renumbering first vs).Formed := by
  have key : ∀ (bindings : List (Nat × Ty)) (s : Subst), s.Formed → (∀ b ∈ bindings, b.2.Formed) →
      Subst.Formed (bindings.foldl (fun s b => s.insert b.1 b.2) s) := by
    intro bindings
    induction bindings with
    | nil => exact fun s hs _ => hs
    | cons b bindings ih =>
      intro s hs hb
      rw [List.forall_mem_cons] at hb
      exact ih _ (hs.insert hb.1 b.1) hb.2
  exact key _ ∅ .empty (List.forall_mem_map.mpr fun _ _ => .var _)

/-! ### The rules -/

variable {st st' : State} {T : Typing}

/-- The bindings of a state have the forms of types. -/
abbrev State.Formed (st : State) : Prop := st.subst.Formed

/-- A rule keeps to the forms: in the state, if it fails or not, and in the typing it gives. -/
def Keeps (res : Except Problem Typing × State) : Prop :=
  res.2.Formed ∧ ∀ T, res.1 = .ok T → T.All Term.Formed

theorem instantiate_formed (h : st.Formed) (hT : T.All Term.Formed) :
    (instantiate T st).2.Formed ∧ (instantiate T st).1.All Term.Formed :=
  ⟨h, (renumbering_formed _ _).apply_typing (h.apply_typing hT)⟩

/-- An instance of a tuple is a tuple. -/
theorem instantiate_product {ts : List Ty} (h : T.ty = .product ts) (st : State) :
    ∃ us, (instantiate T st).1.ty = .product us := by
  change ∃ us, ((T.apply st.subst).apply _).ty = _
  rw [Typing.apply, Typing.mapTypes_ty, Typing.apply, Typing.mapTypes_ty, h, Ty.product,
    Subst.apply_con, Subst.apply_con]
  exact ⟨_, rfl⟩

theorem equateAll_formed (span : Span) (description : String) {a : Ty} (ha : a.Formed)
    (bs : List Ty) : ∀ {st : State}, st.Formed → (∀ b ∈ bs, b.Formed) →
      (equateAll span description a bs st).2.Formed := by
  induction bs with
  | nil => exact fun h _ => h
  | cons b bs ih =>
    intro st h hbs
    rw [List.forall_mem_cons] at hbs
    have h₁ : (st.unified a b).Formed := h.unify ha hbs.1
    rw [equateAll_cons, equate_eq]
    rcases (unify st.subst a b).1 with cause | _
    · exact h₁
    · exact ih h₁ hbs.2

theorem bindParams_formed (span : Span) (params : List String) :
    ∀ {context : Context} {st : State}, st.Formed → Uses.All Term.Formed context →
      (bindParams span params context st).2.Formed ∧
        ∀ ts c, (bindParams span params context st).1 = .ok (ts, c) →
          (∀ t ∈ ts, t.Formed) ∧ Uses.All Term.Formed c := by
  induction params with
  | nil =>
    intro context st h hc
    refine ⟨h, fun ts c heq => ?_⟩
    cases heq
    exact ⟨by simp, hc⟩
  | cons param params ih =>
    intro context st h hc
    have hvar : Term.Formed (.var (⟨st.count, none⟩ : TVar)) := .var _
    have hnext : st.next.Formed := h
    -- the parameter takes a new variable, which is unified with each of its uses
    have h₁ := equateAll_formed span (parameterOf param) hvar (Uses.of context param) hnext
      (hc.of param)
    rw [bindParams_cons, Context.uses_eq]
    rcases heq : equateAll span (parameterOf param) (.var ⟨st.count, none⟩) (Uses.of context param)
      st.next with ⟨problem | _, st₁⟩ <;> rw [heq] at h₁
    · exact ⟨h₁, fun ts c heq => by cases heq⟩
    -- the other parameters are bound in what is left of the context
    obtain ⟨h₂, hok⟩ := ih h₁ (hc.erase param)
    simp only
    rcases hrest : bindParams span params (Table.erase context param) st₁ with
      ⟨problem | ⟨ts', c'⟩, st₂⟩ <;> rw [hrest] at h₂ hok
    · exact ⟨h₂, fun ts c heq => by cases heq⟩
    · refine ⟨h₂, fun ts c heq => ?_⟩
      cases heq
      exact ⟨List.forall_mem_cons.mpr ⟨hvar, (hok ts' c' rfl).1⟩, (hok ts' c' rfl).2⟩

/-- A function has the tuple of its parameters before the arrow. -/
theorem fnTyping_keeps (h : st.Formed) {body : Typing} (hbody : body.All Term.Formed) (span : Span)
    (params : List String) : Keeps (fnTyping span params body st) := by
  obtain ⟨hty, hcontext, -⟩ := Typing.all_iff.mp hbody
  obtain ⟨h₁, hok⟩ := bindParams_formed span params h hcontext
  rw [fnTyping_eq]
  rcases hbind : bindParams span params body.context st with ⟨problem | ⟨ts, c⟩, st₁⟩ <;>
    rw [hbind] at h₁ hok
  · exact ⟨h₁, fun T heq => by cases heq⟩
  · refine ⟨h₁, fun T heq => ?_⟩
    cases heq
    obtain ⟨hts, hc⟩ := hok ts c rfl
    exact Typing.all_iff.mpr ⟨.arrow hts hty, hc, fun _ he => absurd he List.not_mem_nil⟩

/-- A function that is applied to a tuple: the type that it is tried at is that of a function, which
is also the one behind a mark of failure. -/
theorem applyTypings_formed (h : st.Formed) (span : Span) {fnRaw fn argRaw arg : Typing}
    {ts us : List Ty} (hfnRaw : fnRaw.All Term.Formed) (hfn : fn.All Term.Formed)
    (hargRaw : argRaw.All Term.Formed) (hts : argRaw.ty = .product ts)
    (harg : arg.All Term.Formed) (hus : arg.ty = .product us) :
    (applyTypings span fnRaw fn argRaw arg st).2.Formed ∧
      (applyTypings span fnRaw fn argRaw arg st).1.All Term.Formed := by
  obtain ⟨hfty, hfc, -⟩ := Typing.all_iff.mp hfn
  obtain ⟨haty, hac, -⟩ := Typing.all_iff.mp harg
  obtain ⟨hraw, -⟩ := Typing.all_iff.mp hargRaw
  rw [hus] at haty
  rw [hts] at hraw
  -- the argument is a tuple, so the type that the function is tried at is a function type
  have htried : ∀ v : TVar, (Ty.arrow arg.ty (.var v)).Formed := fun v => by
    rw [hus]
    exact .arrow haty.args (.var v)
  have h₁ : (st.next.unified fn.ty (.arrow arg.ty (.var ⟨st.count, none⟩))).Formed :=
    Subst.Formed.unify h hfty (htried _)
  rw [applyTypings_eq]
  rcases (unify st.subst fn.ty (.arrow arg.ty (.var ⟨st.count, none⟩))).1 with cause | _
  -- a mark of failure holds the two types that did not fit, with the argument still a tuple
  · refine ⟨h₁, Typing.all_closed.mpr ?_⟩
    rw [hts]
    exact .failure (Typing.all_iff.mp hfnRaw).1 hraw.args (.var _)
  · refine ⟨h₁, Typing.all_iff.mpr ⟨.var _, ?_, fun _ he => absurd he List.not_mem_nil⟩⟩
    rw [Context.union_eq]
    exact hfc.union hac

/-- Resolving names keeps to the forms, however it goes. -/
theorem ResolutionRun.formed {defined : Defined} {span : Span} {depth : Nat} {chain : List String}
    {context out : Context} {res : Outcome Unit Context × State}
    (hrun : ResolutionRun defined span depth chain context out st res) (h : st.Formed)
    (hdef : ∀ e ∈ defined, e.2.All Term.Formed) (hc : Uses.All Term.Formed context)
    (hout : Uses.All Term.Formed out) : res.2.Formed ∧ Uses.All Term.Formed res.1.2 := by
  -- what follows the instance of a declared name
  have hmeet : ∀ {name : String} {uses : List Ty} {S : Typing} {st : State},
      Table.get? defined name = some S → st.Formed → (∀ t ∈ uses, t.Formed) →
      (equateAll span (useOf name) (instantiate S st).1.ty uses
        ((instantiate S st).2.logged (.resolved name uses.length))).2.Formed ∧
      Uses.All Term.Formed (instantiate S st).1.context := by
    intro name uses S st hget hst huses
    obtain ⟨h₁, hcopy⟩ := instantiate_formed hst (hdef _ (Table.mem_of_get? hget))
    obtain ⟨hty, hcontext, -⟩ := Typing.all_iff.mp hcopy
    exact ⟨equateAll_formed span (useOf name) hty uses h₁ huses, hcontext⟩
  induction hrun with
  | nil => exact ⟨h, hout⟩
  | undeclared _ _ ih =>
    rw [Uses.all_cons] at hc
    exact ih h hc.2 (hout.passOut hc.1 _)
  | recursive => exact ⟨h, hout⟩
  | clash hget _ heq =>
    rw [Uses.all_cons] at hc
    have h₁ := (hmeet hget h hc.1).1
    rw [heq] at h₁
    exact ⟨h₁, hout⟩
  | fail hget _ heq _ ih =>
    rw [Uses.all_cons] at hc
    obtain ⟨h₁, hcontext⟩ := hmeet hget h hc.1
    rw [heq] at h₁
    exact ih h₁ hcontext hout
  | declared hget _ heq _ _ ih ihrest =>
    rw [Uses.all_cons] at hc
    obtain ⟨h₁, hcontext⟩ := hmeet hget h hc.1
    rw [heq] at h₁
    obtain ⟨h₂, hout₂⟩ := ih h₁ hcontext hout
    exact ihrest h₂ hc.2 hout₂

theorem resolve_formed (h : st.Formed) {defined : Defined}
    (hdef : ∀ e ∈ defined, e.2.All Term.Formed) {context out : Context}
    (hc : Uses.All Term.Formed context) (hout : Uses.All Term.Formed out) (span : Span) :
    (resolve out defined span context st).2.Formed ∧
      ∀ rest, (resolve out defined span context st).1 = .ok rest → Uses.All Term.Formed rest := by
  have hrun := (resolutionRun defined span defined.length [] context out st).formed h hdef hc hout
  rw [resolve_eq]
  rcases hres : resolveNames defined span defined.length [] context out st with
    ⟨⟨problem | _, out₁⟩, st₁⟩ <;> rw [hres] at hrun
  · exact ⟨hrun.1, fun rest heq => by cases heq⟩
  · exact ⟨hrun.1, fun rest heq => Except.ok.inj heq ▸ hrun.2⟩

theorem absorb_keeps (h : st.Formed) {sofar stmt : Typing} (hsofar : sofar.All Term.Formed)
    (hstmt : stmt.All Term.Formed) (span : Span) : Keeps (absorb sofar span stmt st) := by
  obtain ⟨h₁, hcopy⟩ := instantiate_formed h hstmt
  obtain ⟨hty, hcontext, hdefined⟩ := Typing.all_iff.mp hcopy
  obtain ⟨-, hout, hbefore⟩ := Typing.all_iff.mp hsofar
  have hdef : ∀ e ∈ Table.insertAll sofar.defined (instantiate stmt st).1.defined,
      e.2.All Term.Formed := fun e he => (Table.mem_insertAll he).elim (hbefore e) (hdefined e)
  -- the uses so far meet the names declared so far and those of the statement
  obtain ⟨h₂, hok⟩ := resolve_formed h₁ hdef hcontext hout span
  rw [absorb_eq]
  rcases hres : resolve sofar.context _ span _ (instantiate stmt st).2 with
    ⟨problem | rest, st₁⟩ <;> rw [hres] at h₂ hok
  · exact ⟨h₂, fun T heq => by cases heq⟩
  · refine ⟨h₂, fun T heq => ?_⟩
    cases heq
    exact Typing.all_iff.mpr ⟨hty, hok rest rfl, hdef⟩

/-! ### Arguments are tuples -/

namespace Tree

variable {α β : Type}

/-- Whether the root is a tuple. -/
def isTuple : Tree α → Bool
  | .tuple _ _ => true
  | _ => false

/-- Whether the root is no application or has a tuple as its argument. -/
def takesTuple : Tree α → Bool
  | .apply _ _ arg => arg.isTuple
  | _ => true

/-- Every application in the tree has a tuple as its argument. -/
def Packed (t : Tree α) : Prop := ∀ n ∈ t.subtrees, n.takesTuple = true

theorem packed_iff {t : Tree α} :
    t.Packed ↔ t.takesTuple = true ∧ ∀ c ∈ t.children, c.Packed := forall_subtrees_iff

@[simp] theorem isTuple_map (f : α → β) (t : Tree α) : (t.map f).isTuple = t.isTuple := by
  cases t <;> rfl

@[simp] theorem isTuple_setLabel (l : α) (t : Tree α) : (t.setLabel l).isTuple = t.isTuple := by
  cases t <;> rfl

theorem takesTuple_map (f : α → β) (t : Tree α) : (t.map f).takesTuple = t.takesTuple := by
  cases t with
  | apply l fn arg => exact isTuple_map f arg
  | _ => rfl

/-- Labels do not matter. -/
theorem packed_map (f : α → β) (t : Tree α) : (t.map f).Packed ↔ t.Packed := by
  induction t using childInduction with
  | step t ih =>
    rw [packed_iff, packed_iff, takesTuple_map, children_map, List.forall_mem_map]
    exact and_congr_right fun _ => forall₂_congr ih

theorem parsableList_iff [Alphabet] {stmt : Bool} {ts : List (Tree α)} :
    parsableList stmt ts = true ↔ ∀ t ∈ ts, t.parsable stmt = true := by
  induction ts with
  | nil => simp [parsableList]
  | cons t ts ih => rw [parsableList, Bool.and_eq_true, ih, List.forall_mem_cons]

/-- The parser packs the arguments of an application into a tuple. -/
theorem packed_of_parsable [Alphabet] {t : Tree α} {stmt : Bool} (h : t.parsable stmt = true) :
    t.Packed := by
  induction t using Tree.induction generalizing stmt with
  | int | var => exact packed_iff.mpr ⟨rfl, fun _ hc => absurd hc List.not_mem_nil⟩
  | tuple l ts ih | array l ts ih | block l ts ih =>
    rw [parsable, parsableList_iff] at h
    exact packed_iff.mpr ⟨rfl, fun c hc => ih c hc (h c hc)⟩
  -- a call has its arguments in a tuple; with anything else it cannot be parsed
  | apply l fn arg ihf iha =>
    cases arg with
    | tuple l' args =>
      rw [parsable, Bool.and_eq_true] at h
      have harg : (tuple l' args).parsable false = true := by rw [parsable, h.2]
      exact packed_iff.mpr ⟨rfl, by simpa [children] using ⟨ihf h.1, iha harg⟩⟩
    | _ => simp [parsable] at h
  | fn l name value ih | decl l name value ih | assign l name value ih =>
    rw [parsable, Bool.and_eq_true] at h
    exact packed_iff.mpr ⟨rfl, by simpa [children] using ih h.2⟩
  | ret l value ih =>
    rw [parsable, Bool.and_eq_true] at h
    exact packed_iff.mpr ⟨rfl, by simpa [children] using ih h.2⟩

end Tree

theorem parse_packed [Alphabet] {source : String} {t : Tree Span} (h : parse source = .ok t) :
    t.Packed := by
  obtain ⟨ss, hshape, hss⟩ := parsable_of_parse h
  have hblock : (Tree.block () ss).parsable true = true := by rw [Tree.parsable, hss]
  rw [← Tree.packed_map fun _ => ()]
  show t.shape.Packed
  rw [hshape]
  exact Tree.packed_of_parsable hblock

/-! ### Nodes -/

/-- The typing suits the node: it keeps to the forms, and that of a tuple has a tuple type. -/
def Tree.Suits (n : Tree Mark) (T : Typing) : Prop :=
  T.All Term.Formed ∧ (n.isTuple = true → ∃ ts, T.ty = .product ts)

/-- All the known typings of a tree suit their nodes. -/
abbrev Tree.Formed (t : Tree Mark) : Prop := t.Marked Tree.Suits

theorem Tree.settle_formed {t : Tree Mark} (h : t.label.typing = none)
    (hc : ∀ c ∈ t.children, c.Formed) {r : Except Problem Typing}
    (hr : ∀ T, r = .ok T → t.Suits T) : (t.settle r).2.Formed := by
  refine (marked_settle h).mpr ⟨fun T hT => ?_, hc⟩
  obtain ⟨hall, htuple⟩ := hr T hT
  refine ⟨hall, fun hroot => htuple ?_⟩
  rw [hT] at hroot
  exact (isTuple_setLabel _ t).symm.trans hroot

/-- A node that gets no typing. -/
theorem Tree.refused_formed {t : Tree Mark} (h : t.label.typing = none)
    (hc : ∀ c ∈ t.children, c.Formed) : t.Formed :=
  marked_iff.mpr ⟨fun T hT => absurd hT (by simp [h]), hc⟩

theorem infer_isTuple (t : Tree Mark) (st : State) : (infer t st).1.2.isTuple = t.isTuple := by
  have h := congrArg Tree.isTuple (infer_completes t st).erase_eq
  rwa [Tree.erase, Tree.isTuple_map, Tree.erase, Tree.isTuple_map] at h

/-- The inference of a node keeps to the forms, if it fails or not. -/
def Forming (t : Tree Mark) : Prop :=
  t.Packed → t.Formed → ∀ {st : State}, st.Formed →
    (infer t st).2.Formed ∧ (infer t st).1.2.Formed

/-- What inference finds at a node suits the node. -/
theorem infer_suits {t t' : Tree Mark} (hres : infer t st = ((.ok T, t'), st')) (h : t'.Formed) :
    T.All Term.Formed ∧ (t.isTuple = true → ∃ ts, T.ty = .product ts) := by
  have hlabel := infer_label t st
  have htuple := infer_isTuple t st
  rw [hres] at hlabel htuple
  obtain ⟨hall, hroot⟩ := (Tree.marked_iff.mp h).1 T hlabel
  exact ⟨hall, fun ht => hroot (htuple.trans ht)⟩

theorem inferAll_formed (ts : List (Tree Mark)) (ih : ∀ t ∈ ts, Forming t) :
    (∀ t ∈ ts, t.Packed) → (∀ t ∈ ts, t.Formed) → ∀ {st : State}, st.Formed →
      (inferAll ts st).2.Formed ∧ (∀ t ∈ (inferAll ts st).1.2, t.Formed) ∧
        ∀ Ts, (inferAll ts st).1.1 = .ok Ts → ∀ T ∈ Ts, T.All Term.Formed := by
  induction ts with
  | nil =>
    intro _ _ st h
    refine ⟨h, by simp [inferAll_nil], fun Ts heq => ?_⟩
    cases heq
    simp
  | cons t ts ihs =>
    intro hpacked hformed st h
    rw [List.forall_mem_cons] at ih hpacked hformed
    obtain ⟨h₁, ht'⟩ := ih.1 hpacked.1 hformed.1 h
    rw [inferAll_cons]
    rcases hres : infer t st with ⟨⟨problem | T, t'⟩, st₁⟩ <;> rw [hres] at h₁ ht'
    -- the nodes behind the one that failed keep the marks that they had
    · exact ⟨h₁, List.forall_mem_cons.mpr ⟨ht', hformed.2⟩, fun Ts heq => by cases heq⟩
    obtain ⟨h₂, hts', hok⟩ := ihs ih.2 hpacked.2 hformed.2 h₁
    simp only
    rcases hrest : inferAll ts st₁ with ⟨⟨problem | Ts', ts'⟩, st₂⟩ <;> rw [hrest] at h₂ hts' hok
    all_goals refine ⟨h₂, List.forall_mem_cons.mpr ⟨ht', hts'⟩, fun Ts heq => ?_⟩
    · cases heq
    · cases heq
      exact List.forall_mem_cons.mpr ⟨(infer_suits hres ht').1, hok Ts' rfl⟩

theorem inferStatements_formed (ts : List (Tree Mark)) (ih : ∀ t ∈ ts, Forming t) :
    (∀ t ∈ ts, t.Packed) → (∀ t ∈ ts, t.Formed) → ∀ {sofar : Typing} {st : State}, st.Formed →
      sofar.All Term.Formed →
      (inferStatements sofar ts st).2.Formed ∧
        (∀ t ∈ (inferStatements sofar ts st).1.2, t.Formed) ∧
        ∀ T, (inferStatements sofar ts st).1.1 = .ok T → T.All Term.Formed := by
  induction ts with
  | nil =>
    intro _ _ sofar st h hsofar
    refine ⟨h, by simp [inferStatements_nil], fun T heq => ?_⟩
    cases heq
    exact hsofar
  | cons t ts ihs =>
    intro hpacked hformed sofar st h hsofar
    rw [List.forall_mem_cons] at ih hpacked hformed
    have hlogged : (st.logged (.statement t.kind t.label.span.start)).Formed := h
    obtain ⟨h₁, ht'⟩ := ih.1 hpacked.1 hformed.1 hlogged
    rw [inferStatements_cons]
    rcases hres : infer t _ with ⟨⟨problem | raw, t'⟩, st₁⟩ <;> rw [hres] at h₁ ht'
    -- the statements behind the one that failed keep the marks that they had
    · exact ⟨h₁, List.forall_mem_cons.mpr ⟨ht', hformed.2⟩, fun T heq => by cases heq⟩
    obtain ⟨h₂, hok₂⟩ := absorb_keeps h₁ hsofar (infer_suits hres ht').1 t'.label.span
    simp only
    rcases habs : absorb sofar t'.label.span raw st₁ with ⟨problem | sofar', st₂⟩ <;>
      rw [habs] at h₂ hok₂
    · exact ⟨h₂, List.forall_mem_cons.mpr ⟨ht', hformed.2⟩, fun T heq => by cases heq⟩
    obtain ⟨h₃, hts', hok₃⟩ := ihs ih.2 hpacked.2 hformed.2 h₂ (hok₂ sofar' rfl)
    exact ⟨h₃, List.forall_mem_cons.mpr ⟨ht', hts'⟩, hok₃⟩

/-- A function applied to a tuple. -/
theorem forming_apply {m : Mark} {fn arg : Tree Mark} (hm : m.typing = none) (ihf : Forming fn)
    (iha : Forming arg) : Forming (.apply m fn arg) := by
  intro hpacked hformed st h
  obtain ⟨htuple, hpacked⟩ := Tree.packed_iff.mp hpacked
  have hchildren := (Tree.marked_iff.mp hformed).2
  simp only [Tree.children, List.forall_mem_cons] at hpacked hchildren
  obtain ⟨h₁, hfn'⟩ := ihf hpacked.1 hchildren.1 h
  rw [infer_apply hm]
  rcases hfn : infer fn st with ⟨⟨problem | fnRaw, fn'⟩, st₁⟩ <;> rw [hfn] at h₁ hfn'
  -- the argument has not been looked at yet
  · exact ⟨h₁, Tree.refused_formed (t := .apply m fn' arg) hm
      (by simpa [Tree.children] using ⟨hfn', hchildren.2.1⟩)⟩
  obtain ⟨hfnRaw, -⟩ := infer_suits hfn hfn'
  obtain ⟨h₂, hcopy⟩ := instantiate_formed h₁ hfnRaw
  obtain ⟨h₃, harg'⟩ := iha hpacked.2.1 hchildren.2.1 h₂
  simp only
  rcases harg : infer arg (instantiate fnRaw st₁).2 with ⟨⟨problem | argRaw, arg'⟩, st₂⟩ <;>
    rw [harg] at h₃ harg'
  · exact ⟨h₃, Tree.refused_formed (t := .apply m fn' arg') hm
      (by simpa [Tree.children] using ⟨hfn', harg'⟩)⟩
  -- the node of the argument is a tuple, so its type is a product, and so is that of its copy
  obtain ⟨hargRaw, hproduct⟩ := infer_suits harg harg'
  obtain ⟨ts, hts⟩ := hproduct htuple
  obtain ⟨us, hus⟩ := instantiate_product hts st₂
  obtain ⟨h₄, hcopy'⟩ := instantiate_formed h₃ hargRaw
  obtain ⟨h₅, hT⟩ := applyTypings_formed h₄ m.span hfnRaw hcopy hargRaw hts hcopy' hus
  refine ⟨h₅, Tree.settle_formed (t := .apply m fn' arg') hm
    (by simpa [Tree.children] using ⟨hfn', harg'⟩) fun T heq => ?_⟩
  cases heq
  exact ⟨hT, fun hroot => by cases hroot⟩

/-- **Inference keeps to the forms, if it fails or not.** -/
theorem infer_formed (t : Tree Mark) : Forming t := by
  induction t using Tree.pendingInduction with
  | apply m fn arg hm ihf iha => exact forming_apply hm ihf iha
  | known t T hT =>
    -- a typing that is there already has its form by assumption
    intro _ hformed st h
    rw [infer_known hT]
    exact ⟨h, hformed⟩
  | int m value hm =>
    intro _ _ st h
    rw [infer_int hm]
    refine ⟨h, Tree.settle_formed (t := .int m value) hm (by simp [Tree.children]) fun T heq => ?_⟩
    cases heq
    exact ⟨Typing.all_closed.mpr .int, fun hroot => by cases hroot⟩
  | var m name hm =>
    intro _ _ st h
    rw [infer_var hm]
    refine ⟨h, Tree.settle_formed (t := .var m name) hm (by simp [Tree.children]) fun T heq => ?_⟩
    cases heq
    have hvar : Term.Formed (.var (⟨st.count, some useTag⟩ : TVar)) := .var _
    exact ⟨Typing.all_iff.mpr ⟨hvar, by simpa [Context.singleton] using hvar, by simp⟩,
      fun hroot => by cases hroot⟩
  | array m elems hm =>
    -- nothing is marked where inference stops at once
    intro _ hformed st h
    rw [infer_array hm]
    exact ⟨h, hformed⟩
  | assign m name value hm =>
    intro _ hformed st h
    rw [infer_assign hm]
    exact ⟨h, hformed⟩
  | tuple m elems hm ih =>
    intro hpacked hformed st h
    obtain ⟨h₁, helems, hok⟩ := inferAll_formed elems ih (Tree.packed_iff.mp hpacked).2
      (Tree.marked_iff.mp hformed).2 h
    rw [infer_tuple hm]
    rcases hres : inferAll elems st with ⟨⟨r, elems'⟩, st₁⟩
    rw [hres] at h₁ helems hok
    refine ⟨h₁, Tree.settle_formed (t := .tuple m elems') hm helems fun T heq => ?_⟩
    cases r with
    | error problem => cases heq
    | ok Ts =>
      cases heq
      -- the tuple has the type of a product, as `Suits` wants it for this kind of node
      exact ⟨tupleTyping_all (fun _ => .product) (hok Ts rfl), fun _ => ⟨_, rfl⟩⟩
  | fn m params body hm ih =>
    intro hpacked hformed st h
    obtain ⟨h₁, hbody'⟩ := ih ((Tree.packed_iff.mp hpacked).2 body (by simp [Tree.children]))
      ((Tree.marked_iff.mp hformed).2 body (by simp [Tree.children])) h
    rw [infer_fn hm]
    rcases hres : infer body st with ⟨⟨problem | raw, body'⟩, st₁⟩ <;> rw [hres] at h₁ hbody'
    · exact ⟨h₁, Tree.refused_formed (t := .fn m params body') hm
        (by simpa [Tree.children] using hbody')⟩
    -- the parameters are bound in a copy of the typing of the body
    obtain ⟨h₂, hcopy⟩ := instantiate_formed h₁ (infer_suits hres hbody').1
    obtain ⟨h₃, hok⟩ := fnTyping_keeps h₂ hcopy m.span params
    exact ⟨h₃, Tree.settle_formed (t := .fn m params body') hm
      (by simpa [Tree.children] using hbody')
      fun T heq => ⟨hok T heq, fun hroot => by cases hroot⟩⟩
  | decl m name value hm ih =>
    intro hpacked hformed st h
    obtain ⟨h₁, hvalue'⟩ := ih ((Tree.packed_iff.mp hpacked).2 value (by simp [Tree.children]))
      ((Tree.marked_iff.mp hformed).2 value (by simp [Tree.children])) h
    rw [infer_decl hm]
    rcases hres : infer value st with ⟨⟨r, value'⟩, st₁⟩
    rw [hres] at h₁ hvalue'
    refine ⟨h₁, Tree.settle_formed (t := .decl m name value') hm
      (by simpa [Tree.children] using hvalue') fun T heq => ?_⟩
    cases r with
    | error problem => cases heq
    | ok raw =>
      cases heq
      exact ⟨Typing.all_iff.mpr ⟨.unit, Uses.all_nil,
        by simpa [declTyping] using (infer_suits hres hvalue').1⟩, fun hroot => by cases hroot⟩
  | ret m value hm ih =>
    intro hpacked hformed st h
    obtain ⟨h₁, hvalue'⟩ := ih ((Tree.packed_iff.mp hpacked).2 value (by simp [Tree.children]))
      ((Tree.marked_iff.mp hformed).2 value (by simp [Tree.children])) h
    rw [infer_ret hm]
    rcases hres : infer value st with ⟨⟨r, value'⟩, st₁⟩
    rw [hres] at h₁ hvalue'
    refine ⟨h₁, Tree.settle_formed (t := .ret m value') hm
      (by simpa [Tree.children] using hvalue') fun T heq => ?_⟩
    -- a return has the very typing of its value
    rw [heq] at hres
    exact ⟨(infer_suits hres hvalue').1, fun hroot => by cases hroot⟩
  | block m stmts hm ih =>
    intro hpacked hformed st h
    obtain ⟨h₁, hstmts, hok⟩ := inferStatements_formed stmts ih (Tree.packed_iff.mp hpacked).2
      (Tree.marked_iff.mp hformed).2 h (Typing.all_closed.mpr .unit)
    rw [infer_block hm]
    exact ⟨h₁, Tree.settle_formed (t := .block m _) hm hstmts
      fun T heq => ⟨hok T heq, fun hroot => by cases hroot⟩⟩

/-! ### Signatures -/

/-- The builtin names have types of the forms, and making them binds nothing. -/
theorem builtins_formed (withPrelude : Bool) (st : State) :
    (builtins withPrelude st).2.subst = st.subst ∧
      ∀ e ∈ (builtins withPrelude st).1, e.2.All Term.Formed := by
  cases withPrelude with
  | false => exact ⟨rfl, fun e he => absurd he List.not_mem_nil⟩
  | true => exact ⟨rfl, prelude_all .int .unit (fun _ _ => .var _) (fun _ => .product)
      fun _ _ => .arrow⟩

theorem resolveThrough_formed (span : Span) (scopes : List Defined) :
    ∀ {context : Context} {st : State}, st.Formed →
      (∀ scope ∈ scopes, ∀ e ∈ scope, e.2.All Term.Formed) → Uses.All Term.Formed context →
      (resolveThrough span scopes context st).2.Formed := by
  induction scopes with
  | nil => exact fun h _ _ => h
  | cons scope scopes ih =>
    intro context st h hscopes hc
    rw [List.forall_mem_cons] at hscopes
    obtain ⟨h₁, hrest⟩ := resolve_formed h hscopes.1 hc Uses.all_nil span
    rw [resolveThrough, Infer.bind_apply]
    rcases hres : resolve [] scope span context st with ⟨problem | rest, st₁⟩ <;>
      rw [hres] at h₁ hrest
    · exact h₁
    · exact ih h₁ hscopes.2 (hrest rest rfl)

theorem signature_formed (h : st.Formed) {scopes : List Defined}
    (hscopes : ∀ scope ∈ scopes, ∀ e ∈ scope, e.2.All Term.Formed) {value : Typing}
    (hvalue : value.All Term.Formed) (span : Span) (name : String) :
    (signature scopes span name value st).2.Formed := by
  obtain ⟨h₁, hcopy⟩ := instantiate_formed h hvalue
  have h₂ := resolveThrough_formed span scopes h₁ hscopes (Typing.all_iff.mp hcopy).2.1
  rw [signature_eq]
  rcases hres : resolveThrough span scopes (instantiate value st).1.context (instantiate value st).2
    with ⟨problem | _, st₁⟩ <;> rw [hres] at h₂ <;> exact h₂

/-- Reporting the signatures of a tree keeps to the forms. -/
def ReportingFormed (t : Tree Mark) : Prop :=
  ∀ {scopes : List Defined} {st : State}, st.Formed →
    (∀ scope ∈ scopes, ∀ e ∈ scope, e.2.All Term.Formed) → t.Formed →
    (signatures scopes t st).2.Formed

theorem signaturesList_formed (ts : List (Tree Mark)) (ih : ∀ t ∈ ts, ReportingFormed t) :
    ∀ {scopes : List Defined} {st : State}, st.Formed →
      (∀ scope ∈ scopes, ∀ e ∈ scope, e.2.All Term.Formed) → (∀ t ∈ ts, t.Formed) →
      (signaturesList scopes ts st).2.Formed := by
  induction ts with
  | nil => exact fun h _ _ => h
  | cons t ts ihs =>
    intro scopes st h hscopes hts
    rw [List.forall_mem_cons] at ih hts
    exact ihs ih.2 (ih.1 h hscopes hts.1) hscopes hts.2

theorem signatures_formed (t : Tree Mark) : ReportingFormed t := by
  induction t using Tree.induction with
  | int m value | var m name => exact fun h _ _ => h
  | tuple m elems ih | array m elems ih =>
    intro scopes st h hscopes ht
    exact signaturesList_formed elems ih h hscopes (Tree.marked_iff.mp ht).2
  | fn m params value ih | assign m name value ih =>
    intro scopes st h hscopes ht
    exact ih h hscopes ((Tree.marked_iff.mp ht).2 value (by simp [Tree.children]))
  | ret m value ih =>
    intro scopes st h hscopes ht
    exact ih h hscopes ((Tree.marked_iff.mp ht).2 value (by simp [Tree.children]))
  | apply m fn arg ihf iha =>
    intro scopes st h hscopes ht
    have hchildren := (Tree.marked_iff.mp ht).2
    exact iha (ihf h hscopes (hchildren fn (by simp [Tree.children]))) hscopes
      (hchildren arg (by simp [Tree.children]))
  | decl m name value ih =>
    intro scopes st h hscopes ht
    have hvalue := (Tree.marked_iff.mp ht).2 value (by simp [Tree.children])
    rw [signatures]
    cases hT : value.label.typing with
    | none => exact ih h hscopes hvalue
    | some T =>
      have hall := ((Tree.marked_iff.mp hvalue).1 T hT).1
      exact ih (signature_formed h hscopes hall m.span name) hscopes hvalue
  | block m stmts ih =>
    intro scopes st h hscopes ht
    obtain ⟨hroot, hstmts⟩ := Tree.marked_iff.mp ht
    rw [signatures]
    cases hT : m.typing with
    | none => exact h
    | some T =>
      -- the declarations of the block are one more scope for its statements
      have hdefined := (Typing.all_iff.mp (hroot T hT).1).2.2
      exact signaturesList_formed stmts ih h (List.forall_mem_cons.mpr ⟨hdefined, hscopes⟩) hstmts

/-! ### Programs -/

/-- A program with the typings that its inference finds, as far as it goes. -/
def Tree.annotated (tree : Tree Span) : Tree Mark := (infer tree.unmarked {}).1.2

/-- The states that come from the inference of a program, which may have failed: any number of times
and in any order builtin names are made, the free names of a node are resolved against builtin
names, which may fail as well, signatures are reported, and events are recorded. -/
inductive Analyzed (tree : Tree Span) : State → Prop
  | infer : Analyzed tree (infer tree.unmarked {}).2
  | builtins {st : State} (withPrelude : Bool) : Analyzed tree st →
      Analyzed tree (builtins withPrelude st).2
  | resolve {st : State} {n : Tree Mark} {T : Typing} (withPrelude : Bool) (made : State)
      (span : Span) : Analyzed tree st → n ∈ tree.annotated.subtrees → n.label.typing = some T →
      Analyzed tree (resolve [] (LetTyping.builtins withPrelude made).1 span T.context st).2
  | signatures {st : State} (withPrelude : Bool) (made : State) : Analyzed tree st →
      Analyzed tree (signatures [(LetTyping.builtins withPrelude made).1] tree.annotated st).2
  | record {st : State} (event : Event) : Analyzed tree st → Analyzed tree (st.logged event)

/-- A check goes through such states up to its end, at a problem or without one. -/
theorem checkTree_analyzed (withPrelude : Bool) (tree : Tree Span) :
    Analyzed tree (checkTree withPrelude tree {}).2 := by
  have hinferred : Analyzed tree (infer tree.unmarked {}).2 := .infer
  have hlabel := infer_label tree.unmarked {}
  rw [checkTree, Infer.bind_apply, Infer.lift_apply]
  rcases hres : infer tree.unmarked {} with ⟨⟨problem | T, root⟩, st⟩ <;>
    rw [hres] at hinferred hlabel
  · exact hinferred
  have hroot : tree.annotated = root := by rw [Tree.annotated, hres]
  have hmem : root ∈ tree.annotated.subtrees := hroot ▸ root.mem_subtrees_self
  -- the root is resolved against builtin names that are made in the state after inference
  let made := st.logged (.inferred st.count T.context.length)
  have h₁ := (hinferred.record (.inferred st.count T.context.length)).builtins withPrelude
  have h₂ := h₁.resolve withPrelude made root.label.span hmem hlabel
  simp only [checkInferred_eq]
  rcases hscope : builtins withPrelude made with ⟨scope, st₁⟩
  rw [hscope] at h₁ h₂
  simp only
  rcases hresolve : resolve [] scope root.label.span T.context st₁ with
    ⟨problem | rest, resolved⟩ <;> rw [hresolve] at h₂
  · exact h₂
  · have h₃ := (h₂.record (.preludeResolved rest.length)).signatures withPrelude made
    rw [hroot, hscope] at h₃
    exact h₃.record _

theorem Tree.annotated_formed {tree : Tree Span} (h : tree.Packed) :
    (infer tree.unmarked {}).2.Formed ∧ tree.annotated.Formed :=
  infer_formed tree.unmarked ((packed_map _ tree).mpr h) (marked_unmarked tree) Subst.Formed.empty

/-- What one step of an analysis keeps, a whole analysis keeps. -/
theorem Analyzed.formed {tree : Tree Span} (hpacked : tree.Packed) (h : Analyzed tree st) :
    st.Formed := by
  obtain ⟨hinfer, hroot⟩ := Tree.annotated_formed hpacked
  induction h with
  | infer => exact hinfer
  | builtins withPrelude _ ih =>
    rw [State.Formed, (builtins_formed withPrelude _).1]
    exact ih
  | resolve withPrelude made span _ hn hT ih =>
    have hcontext := (Typing.all_iff.mp (hroot _ hn _ hT).1).2.1
    exact (resolve_formed ih (builtins_formed withPrelude made).2 hcontext Uses.all_nil span).1
  | signatures withPrelude made _ ih =>
    exact signatures_formed tree.annotated ih
      (by simpa using (builtins_formed withPrelude made).2) hroot
  | record event _ ih => exact ih

/-- The types in the typings of nodes and in bindings, resolved or not. -/
inductive Held (root : Tree Mark) (st : State) : Ty → Prop
  | node {n : Tree Mark} {T : Typing} {t : Ty} : n ∈ root.subtrees → n.label.typing = some T →
      t ∈ T.types → Held root st t
  | binding {v : Nat} {t : Ty} : st.subst[v]? = some t → Held root st t
  | resolved {t : Ty} : Held root st t → Held root st (st.subst.apply t)

theorem Held.formed {root : Tree Mark} {t : Ty} (h : Held root st t) (hroot : root.Formed)
    (hst : st.Formed) : t.Formed := by
  induction h with
  | node hn hT ht => exact (hroot _ hn _ hT).1 _ ht
  | binding hv => exact hst _ _ hv
  | resolved _ ih => exact hst.apply ih

/-- **All types that the analysis of a program holds have one of the forms of types, and the parts
of every mark of failure can be read off.**  In particular every function type in them has a tuple
of parameters and a result, and every mark of failure has two parts of which the second is such a
function type. -/
theorem analyzed_formed [Alphabet] {source : String} {tree : Tree Span}
    (hparse : parse source = .ok tree) :
    (∀ withPrelude, Analyzed tree (checkTree withPrelude tree {}).2) ∧
    ∀ st, Analyzed tree st →
      (∀ t, Held tree.annotated st t → t.Formed ∧
        (∀ args, Term.Within (.con Ty.arrowName args) t →
          ∃ params result, args = [.con Ty.productName params, result]) ∧
        ∀ args, Term.Within (.con Ty.failureName args) t →
          ∃ fn params result, args = [fn, .con Ty.arrowName [.con Ty.productName params, result]]) ∧
      ∀ n ∈ tree.annotated.subtrees, ∀ T, n.label.typing = some T → T.ty.isFailure = true →
        ∃ parts, T.ty.failureParts? = some parts := by
  have hpacked := parse_packed hparse
  obtain ⟨-, hroot⟩ := Tree.annotated_formed hpacked
  refine ⟨fun withPrelude => checkTree_analyzed withPrelude tree, fun st hst =>
    ⟨fun t ht => ?_, fun n hn T hT hfail => ?_⟩⟩
  · have hformed := ht.formed hroot (hst.formed hpacked)
    exact ⟨hformed, fun args hargs => (hformed.within hargs).arrow_args,
      fun args hargs => (hformed.within hargs).failure_args⟩
  · exact (Typing.all_iff.mp (hroot n hn T hT).1).1.failureParts hfail

/-- An integer that is called, before an array literal at which inference stops. -/
theorem analyzed_formed_stopped :
    ∃ tree, parse "1(2); [3]" = .ok tree ∧ (infer tree.unmarked {}).1.1.toOption = none ∧
      ∃ n ∈ tree.annotated.subtrees, ∃ T, n.label.typing = some T ∧ T.ty.isFailure = true ∧
        T.ty.Formed ∧ ∃ parts, T.ty.failureParts? = some parts := by
  let tree : Tree Span := .block ⟨0, 9⟩ [.apply ⟨0, 4⟩ (.int ⟨0, 1⟩ 1) (.tuple ⟨1, 4⟩
    [.int ⟨2, 3⟩ 2]), .array ⟨6, 9⟩ [.int ⟨7, 8⟩ 3]]
  have hparse : parse "1(2); [3]" = .ok tree := by cbv
  have hstops : (infer tree.unmarked {}).1.1.toOption.isNone = true := by decide +kernel
  have hfails : tree.annotated.subtrees.any (fun n => n.label.typing.any (·.ty.isFailure)) = true :=
    by decide +kernel
  clear_value tree
  obtain ⟨n, hn, hfail⟩ := List.any_eq_true.mp hfails
  rw [Option.any_eq_true] at hfail
  obtain ⟨T, hT, hfail⟩ := hfail
  obtain ⟨hheld, hparts⟩ := (analyzed_formed hparse).2 _ .infer
  have hall : T.All Term.Formed := fun t ht => (hheld t (.node hn hT ht)).1
  exact ⟨tree, hparse, Option.isNone_iff_eq_none.mp hstops, n, hn, T, hT, hfail,
    (Typing.all_iff.mp hall).1, hparts n hn T hT hfail⟩

end LetTyping
