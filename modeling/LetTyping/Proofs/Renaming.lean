import LetTyping.Proofs.Instance
import LetTyping.Ty.Naming
import Mathlib.Data.Set.Function

/-!
# Renaming variables

Variables are numbered in the order in which inference happens to allocate them.  Nothing that is
shown depends on the numbers: a renaming that keeps different variables different does not change
the text of a type, and an instance of a renamed typing is the instance itself, up to where the
fresh numbers start.

## Main definitions

* `Ty.rename`, `Typing.rename` — other numbers for the variables; tags stay.
* `Alike`, `AlikeAll` — typings are equal up to a renaming, one by one or all by the same.
* `Unrelated` — two typings have no variables in common.
* `Ty.Variant` — two types are equal up to tags and a renaming.

## Main results

* `Ty.texts_rename` — texts do not depend on the numbers of variables.
* `Ty.variant_of_eval` — types that are instances of each other differ in their variables alone.
* `Typing.renumber_rename` — **numbering afresh forgets the old numbers.**
* `AlikeAll.of_pairwise` — typings without common variables are renamed together.
-/

namespace LetTyping

variable {K : Nat → Prop} {f g : Nat → Nat}

/-! ### Types -/

/-- The variable with another number. -/
def TVar.rename (f : Nat → Nat) (v : TVar) : TVar := ⟨f v.id, v.tag⟩

namespace Ty

/-- The type with other numbers for its variables. -/
def rename (f : Nat → Nat) (t : Ty) : Ty := t.map (TVar.rename f)

@[simp] theorem rename_var (f : Nat → Nat) (v : TVar) : rename f (.var v) = .var (v.rename f) := rfl

@[simp] theorem rename_con (f : Nat → Nat) (name : String) (args : List Ty) :
    rename f (.con name args) = .con name (args.map (rename f)) :=
  Term.map_con _ name args

@[simp] theorem rename_arrow (f : Nat → Nat) (a b : Ty) :
    rename f (arrow a b) = arrow (a.rename f) (b.rename f) :=
  rename_con f _ _

@[simp] theorem rename_product (f : Nat → Nat) (ts : List Ty) :
    rename f (product ts) = product (ts.map (rename f)) :=
  rename_con f _ _

@[simp] theorem rename_failure (f : Nat → Nat) (a b : Ty) :
    rename f (failure a b) = failure (a.rename f) (b.rename f) :=
  rename_con f _ _

@[simp] theorem ids_rename (f : Nat → Nat) (t : Ty) : (t.rename f).ids = t.ids.map f := by
  rw [ids, rename, Term.vars_map, List.map_map, ids, List.map_map]
  rfl

@[simp] theorem rename_id (t : Ty) : t.rename id = t := Term.map_eq_self fun _ _ => rfl

/-- Renamings that agree on the variables of a type agree on the type. -/
theorem rename_congr {t : Ty} (h : ∀ w ∈ t.ids, f w = g w) : t.rename f = t.rename g :=
  Term.map_congr fun v hv => congrArg (TVar.mk · v.tag) (h v.id (mem_ids hv))

/-- Giving types to the new variables is giving types to the variables they stand for. -/
theorem eval_rename (θ : Nat → Term Nat) (f : Nat → Nat) (t : Ty) :
    eval θ (t.rename f) = t.eval (θ ∘ f) :=
  Term.bind_map _ _ t

end Ty

/-! ### Texts -/

/-- The place of a number in a list, and that of the renamed number in the renamed list. -/
theorem idxOf_map_rename (hf : Set.InjOn f {n | K n}) {names : List Nat} (hnames : ∀ m ∈ names, K m)
    {n : Nat} (hn : K n) : (names.map f).idxOf (f n) = names.idxOf n := by
  induction names with
  | nil => rfl
  | cons m names ih =>
    rw [List.forall_mem_cons] at hnames
    have hiff : f m = f n ↔ m = n := hf.eq_iff hnames.1 hn
    rw [List.map_cons, List.idxOf_cons, List.idxOf_cons, ih hnames.2]
    simp only [beq_iff_eq, hiff, cond_eq_ite]

namespace Naming

theorem add_rename (hf : Set.InjOn f {n | K n}) {names : Naming} (hnames : ∀ m ∈ names, K m)
    {v : TVar} (hv : K v.id) : add (names.map f) (v.rename f) = (names.add v).map f := by
  have hiff : f v.id ∈ names.map f ↔ v.id ∈ names := by
    refine ⟨fun h => ?_, List.mem_map_of_mem⟩
    obtain ⟨m, hm, heq⟩ := List.mem_map.mp h
    exact hf (hnames m hm) hv heq ▸ hm
  rw [add, add, TVar.rename]
  simp only [hiff]
  split
  · rfl
  · rw [List.map_append, List.map_singleton]

theorem mem_add {names : Naming} (hnames : ∀ m ∈ names, K m) {v : TVar} (hv : K v.id) :
    ∀ m ∈ names.add v, K m := by
  rw [add]
  split
  · exact hnames
  · simpa [or_imp, forall_and] using ⟨hnames, hv⟩

theorem addAll_rename (hf : Set.InjOn f {n | K n}) {t : Ty} (ht : ∀ w ∈ t.ids, K w) {names : Naming}
    (hnames : ∀ m ∈ names, K m) :
    addAll (names.map f) (t.rename f) = (names.addAll t).map f ∧ ∀ m ∈ names.addAll t, K m := by
  have key : ∀ (vs : List TVar) (names : Naming), (∀ v ∈ vs, K v.id) → (∀ m ∈ names, K m) →
      (vs.map (TVar.rename f)).foldl add (names.map f) = (vs.foldl add names).map f ∧
        ∀ m ∈ vs.foldl add names, K m := by
    intro vs
    induction vs with
    | nil => exact fun names _ hnames => ⟨rfl, hnames⟩
    | cons v vs ih =>
      intro names hvs hnames
      rw [List.forall_mem_cons] at hvs
      rw [List.map_cons, List.foldl_cons, List.foldl_cons, add_rename hf hnames hvs.1]
      exact ih _ hvs.2 (mem_add hnames hvs.1)
  rw [addAll, addAll, Ty.rename, Term.vars_map]
  exact key t.vars names (fun v hv => ht v.id (Ty.mem_ids hv)) hnames

end Naming

namespace Term

variable {V W : Type} {h : V → W} {name : W → String} {name' : V → String}

theorem renderList_cons (name : V → String) (t u : Term V) (ts : List (Term V)) :
    renderList name (t :: u :: ts) = render name false t ++ ", " ++ renderList name (u :: ts) := rfl

theorem renderList_map {ts : List (Term V)}
    (hts : ∀ t ∈ ts, ∀ asParam, (t.map h).render name asParam = t.render name' asParam) :
    renderList name (ts.map (map h)) = renderList name' ts := by
  induction ts with
  | nil => rfl
  | cons t ts ih =>
    rw [List.forall_mem_cons] at hts
    cases ts with
    | nil => exact hts.1 false
    | cons u ts =>
      rw [renderList_cons, ← hts.1, ← ih hts.2]
      rfl

theorem renderArrow_map {ts : List (Term V)}
    (hts : ∀ t ∈ ts, ∀ asParam, (t.map h).render name asParam = t.render name' asParam) :
    renderArrow name (ts.map (map h)) = renderArrow name' ts := by
  match ts, hts with
  | [], _ => rfl
  | [_], _ => rfl
  | [t, u], hts =>
    simp only [List.map_cons, List.map_nil, renderArrow, hts t (by simp), hts u (by simp)]
  | _ :: _ :: _ :: _, _ => rfl

/-- The text of a type depends on the names of its variables alone. -/
theorem render_map {t : Term V} (hname : ∀ v ∈ t.vars, name (h v) = name' v) (asParam : Bool) :
    (t.map h).render name asParam = t.render name' asParam := by
  induction t using Term.induction generalizing asParam with
  | var v => exact hname v (by simp)
  | con n args ih =>
    have hargs : ∀ a ∈ args, ∀ asParam, (a.map h).render name asParam = a.render name' asParam := by
      refine fun a ha => ih a ha fun v hv => hname v ?_
      rw [vars_con, List.mem_flatMap]
      exact ⟨a, ha, hv⟩
    rw [map_con, render, render, List.length_map, renderList_map hargs, renderArrow_map hargs]

end Term

/-- A type as text under a renamed naming. -/
theorem Naming.render_rename (hf : Set.InjOn f {n | K n}) {t : Ty} (ht : ∀ w ∈ t.ids, K w)
    {names : Naming} (hnames : ∀ m ∈ names, K m) :
    Naming.render (names.map f) (t.rename f) =
      ((names.render t).1, (names.render t).2.map f) ∧ ∀ m ∈ (names.render t).2, K m := by
  obtain ⟨hadd, hmem⟩ := addAll_rename hf ht hnames
  rw [render, render, hadd]
  refine ⟨congrArg₂ Prod.mk (Term.render_map (fun v hv => ?_) false) rfl, hmem⟩
  rw [nameOf, nameOf, TVar.rename, idxOf_map_rename hf hmem (ht v.id (Ty.mem_ids hv))]

/-- **Texts do not depend on the numbers of variables.** -/
theorem Ty.texts_rename (hf : Set.InjOn f {n | K n}) {a b : Ty} (ha : ∀ w ∈ a.ids, K w)
    (hb : ∀ w ∈ b.ids, K w) : texts (a.rename f) (b.rename f) = texts a b := by
  have hnil : ∀ m ∈ ([] : Naming), K m := by simp
  obtain ⟨hrender, hmem⟩ := Naming.render_rename hf ha hnil
  obtain ⟨hrender', -⟩ := Naming.render_rename hf hb hmem
  rw [List.map_nil] at hrender
  rw [texts, texts, hrender]
  simp only [hrender']

/-! ### Types that are instances of each other -/

/-- Up to tags, the second type is the first one with other variables. -/
def Ty.Variant (t u : Ty) : Prop :=
  ∃ f, Set.InjOn f {n | n ∈ t.ids} ∧ u.untagged = t.untagged.map f

/-- **Two types that are instances of each other differ in their variables alone.** -/
theorem Ty.variant_of_eval {t u : Ty} {θ ζ : Nat → Term Nat} (h : t.eval θ = u.untagged)
    (h' : u.eval ζ = t.untagged) : t.Variant u := by
  -- from a variable to its type and back is the variable again, so its type is a variable
  have hback : ∀ n ∈ t.ids, (θ n).bind ζ = .var n := by
    have heq : (t.eval θ).bind ζ = t.untagged := by
      rw [h, untagged, Term.bind_map]
      exact h'
    rw [eval, Term.bind_bind] at heq
    intro n hn
    obtain ⟨v, hv, rfl⟩ := List.mem_map.mp hn
    exact Term.eq_of_bind_eq heq v hv
  have hvar : ∀ n, ∃ m, n ∈ t.ids → θ n = .var m ∧ ζ m = .var n := by
    intro n
    by_cases hn : n ∈ t.ids
    · have hn' := hback n hn
      cases hθ : θ n with
      | var m =>
        rw [hθ] at hn'
        exact ⟨m, fun _ => ⟨rfl, hn'⟩⟩
      | con name args =>
        rw [hθ, Term.bind_con] at hn'
        cases hn'
    · exact ⟨0, fun hmem => absurd hmem hn⟩
  choose f hf using hvar
  refine ⟨f, fun m hm n hn heq => ?_, ?_⟩
  · have hsame := (hf m hm).2.symm.trans (heq ▸ (hf n hn).2)
    cases hsame
    rfl
  · rw [← h, untagged, Term.map_map]
    exact Term.bind_congr fun v hv => (hf v.id (mem_ids hv)).1

/-- A renaming can be taken back. -/
theorem Ty.Variant.exists_eval {t u : Ty} (h : t.Variant u) : ∃ θ, u.eval θ = t.untagged := by
  obtain ⟨f, hf, hu⟩ := h
  refine ⟨fun m => .var (Function.invFunOn f {n | n ∈ t.ids} m), ?_⟩
  have heval : ∀ g : Nat → Nat, u.eval (fun m => .var (g m)) = u.untagged.map g := fun g =>
    (Term.map_map TVar.id g u).symm
  rw [heval, hu, Term.map_map]
  refine Term.map_eq_self fun n hn => hf.leftInvOn_invFunOn ?_
  rwa [untagged, Term.vars_map] at hn

/-- A type is named variable by variable, whatever the tags. -/
theorem Naming.addAll_eq (names : Naming) (t : Ty) :
    names.addAll t =
      t.untagged.vars.foldl (fun names n => if n ∈ names then names else names ++ [n]) names := by
  rw [addAll, Ty.untagged, Term.vars_map, List.foldl_map]
  rfl

/-- A type as text, from the names of its variables. -/
theorem Naming.render_eq (names : Naming) (t : Ty) :
    names.render t =
      (t.untagged.render (fun n => variableName ((names.addAll t).idxOf n)) false,
        names.addAll t) := by
  have htext : t.untagged.render (fun n => variableName ((names.addAll t).idxOf n)) false =
      t.render (names.addAll t).nameOf false := Term.render_map (fun _ _ => rfl) false
  rw [htext]
  rfl

/-- A type as text does not depend on its tags. -/
theorem Naming.render_congr {t u : Ty} (h : u.untagged = t.untagged) (names : Naming) :
    names.render u = names.render t := by
  rw [render_eq, render_eq, addAll_eq, addAll_eq, h]

theorem Ty.text_eq_render (t : Ty) :
    t.text = t.untagged.render (fun n => variableName ((Naming.addAll [] t).idxOf n)) false :=
  congrArg Prod.fst (Naming.render_eq [] t)

theorem Ty.text_congr {t u : Ty} (h : u.untagged = t.untagged) : u.text = t.text :=
  congrArg Prod.fst (Naming.render_congr h [])

theorem Ty.text_rename (hf : Set.InjOn f {n | K n}) {t : Ty} (ht : ∀ w ∈ t.ids, K w) :
    (t.rename f).text = t.text := by
  have hnil : ∀ m ∈ ([] : Naming), K m := by simp
  obtain ⟨hrender, -⟩ := Naming.render_rename hf ht hnil
  rw [List.map_nil] at hrender
  rw [text, text, hrender]

theorem Ty.Variant.text_eq {t u : Ty} (h : t.Variant u) : u.text = t.text := by
  obtain ⟨f, hf, hu⟩ := h
  have huntagged : u.untagged = (t.rename f).untagged := by
    rw [hu, rename, untagged, untagged, Term.map_map, Term.map_map]
    rfl
  rw [text_congr huntagged, text_rename hf fun w hw => hw]

/-! ### Instances -/

namespace TVar

theorem map_id_rename (f : Nat → Nat) (vs : List TVar) :
    (vs.map (rename f)).map TVar.id = (vs.map TVar.id).map f := by
  rw [List.map_map, List.map_map]
  rfl

theorem distinct_rename (hf : Set.InjOn f {n | K n}) {vs : List TVar} (hvs : ∀ v ∈ vs, K v.id) :
    distinct (vs.map (rename f)) = (distinct vs).map (rename f) := by
  induction vs using distinct_induction with
  | nil => rfl
  | cons v vs ih =>
    rw [List.forall_mem_cons] at hvs
    have hfilter : (vs.map (rename f)).filter (fun w => w.id ≠ (v.rename f).id) =
        (vs.filter fun w => w.id ≠ v.id).map (rename f) := by
      rw [List.filter_map]
      refine congrArg _ (List.filter_congr fun w hw => ?_)
      simp only [Function.comp_apply, rename, ne_eq, hf.eq_iff (hvs.2 w hw) hvs.1]
    rw [List.map_cons, distinct_cons, distinct_cons, hfilter, List.map_cons,
      ih fun w hw => hvs.2 w (List.mem_filter.mp hw).1]

end TVar

namespace Typing

variable {T : Typing}

/-- The typing with other numbers for its variables. -/
def rename (f : Nat → Nat) (T : Typing) : Typing := T.mapTypes (Ty.rename f)

@[simp] theorem rename_mk (f : Nat → Nat) (ty : Ty) (context : Context) (defined : Defined) :
    rename f ⟨ty, context, defined⟩ =
      ⟨ty.rename f, Uses.map (Ty.rename f) context, Table.mapValues (rename f) defined⟩ := by
  rw [rename, mapTypes, mapDefined_eq_map]
  rfl

@[simp] theorem rename_ty (f : Nat → Nat) (T : Typing) : (T.rename f).ty = T.ty.rename f :=
  mapTypes_ty _ T

@[simp] theorem rename_context (f : Nat → Nat) (T : Typing) :
    (T.rename f).context = Uses.map (Ty.rename f) T.context :=
  mapTypes_context _ T

@[simp] theorem rename_defined (f : Nat → Nat) (T : Typing) :
    (T.rename f).defined = Table.mapValues (rename f) T.defined :=
  mapTypes_defined _ T

@[simp] theorem rename_id (T : Typing) : T.rename id = T := mapTypes_eq_self fun t _ => t.rename_id

theorem rename_congr (h : ∀ w ∈ T.ids, f w = g w) : T.rename f = T.rename g :=
  mapTypes_congr ((forall_mem_ids.mp h).imp fun _ ht => Ty.rename_congr ht)

theorem freeVars_rename (hf : Set.InjOn f {n | n ∈ T.ids}) :
    (T.rename f).freeVars = T.freeVars.map (TVar.rename f) := by
  rw [freeVars, rename, types_mapTypes, List.flatMap_map, freeVars, ← TVar.distinct_rename hf]
  · rw [List.map_flatMap]
    refine congrArg _ (List.flatMap_congr fun t _ => ?_)
    rw [Ty.rename, Term.vars_map]
  · intro v hv
    obtain ⟨t, ht, hv⟩ := List.mem_flatMap.mp hv
    exact List.mem_flatMap.mpr ⟨t, ht, Ty.mem_ids hv⟩

/-- **Numbering afresh forgets the old numbers.** -/
theorem renumber_rename (hf : Set.InjOn f {n | n ∈ T.ids}) (first first' : Nat) :
    (T.rename f).renumber first' =
      (T.renumber first).rename fun n => n - first + first' := by
  rw [renumber, freeVars_rename hf, renumber, rename, rename, mapTypes_mapTypes, mapTypes_mapTypes]
  refine mapTypes_congr (T.all_mem_ids.imp fun t ht => ?_)
  rw [Function.comp_apply, Function.comp_apply, Ty.rename, Ty.rename, Term.map_map, Term.map_map]
  refine Term.map_congr fun v hv => ?_
  have hplace : TVar.place (T.freeVars.map (TVar.rename f)) (f v.id) =
      TVar.place T.freeVars v.id := by
    rw [TVar.place, TVar.map_id_rename, TVar.place]
    exact idxOf_map_rename hf (fun m hm => mem_freeVars.mp hm) (ht v.id (Ty.mem_ids hv))
  simp only [Function.comp_apply, TVar.renumber, TVar.rename, hplace, List.getElem?_map]
  refine congrArg₂ TVar.mk ?_ ?_
  · omega
  · cases T.freeVars[TVar.place T.freeVars v.id]? <;> rfl

theorem ids_rename (f : Nat → Nat) (T : Typing) : (T.rename f).ids = T.ids.map f := by
  rw [ids, rename, types_mapTypes, List.flatMap_map, ids, List.map_flatMap]
  exact List.flatMap_congr fun t _ => Ty.ids_rename f t

end Typing

/-! ### Typings that are equal up to renaming -/

/-- The second typing is a renaming of the first, with different variables for different ones. -/
def Alike (R R' : Typing) : Prop := ∃ f, Set.InjOn f {n | n ∈ R.ids} ∧ R' = R.rename f

theorem Alike.refl (R : Typing) : Alike R R := ⟨id, Set.injOn_id _, R.rename_id.symm⟩

/-- Any variable is a renaming of any other. -/
theorem alike_var (m n : Nat) (tag : Option String) :
    Alike (.closed (.var ⟨m, tag⟩)) (.closed (.var ⟨n, tag⟩)) := by
  have hone : ∀ x ∈ (Typing.closed (.var ⟨m, tag⟩)).ids, x = m := by simp
  exact ⟨fun _ => n, fun x hx y hy _ => (hone x hx).trans (hone y hy).symm, rfl⟩

/-- The second typings are renamings of the first ones, all by the same renaming. -/
def AlikeAll (Rs Rs' : List Typing) : Prop :=
  ∃ f, Set.InjOn f {n | ∃ R ∈ Rs, n ∈ R.ids} ∧ Rs' = Rs.map (Typing.rename f)

/-- Two typings have no variables in common. -/
def Unrelated (R S : Typing) : Prop := ∀ n ∈ R.ids, n ∉ S.ids

theorem AlikeAll.nil : AlikeAll [] [] := ⟨id, fun _ ⟨_, h, _⟩ => absurd h (by simp), rfl⟩

/-- A typing without variables of the others is renamed together with them. -/
theorem AlikeAll.cons {R R' : Typing} {Rs Rs' : List Typing} (h : Alike R R')
    (hs : AlikeAll Rs Rs') (hR : ∀ S ∈ Rs, Unrelated R S) (hR' : ∀ S ∈ Rs', Unrelated R' S) :
    AlikeAll (R :: Rs) (R' :: Rs') := by
  obtain ⟨f, hf, rfl⟩ := h
  obtain ⟨g, hg, rfl⟩ := hs
  let k : Nat → Nat := fun n => if n ∈ R.ids then f n else g n
  have hkf : ∀ n ∈ R.ids, k n = f n := fun n hn => if_pos hn
  have hkg : ∀ S ∈ Rs, ∀ n ∈ S.ids, k n = g n := fun S hS n hn =>
    if_neg fun hmem => hR S hS n hmem hn
  -- the images of variables of the typing and of another one differ
  have hcross : ∀ m ∈ R.ids, ∀ S ∈ Rs, ∀ n ∈ S.ids, f m ≠ g n := by
    intro m hm S hS n hn heq
    refine hR' _ (List.mem_map_of_mem hS) (f m) ?_ ?_
    · rw [Typing.ids_rename]
      exact List.mem_map_of_mem hm
    · rw [Typing.ids_rename, heq]
      exact List.mem_map_of_mem hn
  refine ⟨k, ?_, ?_⟩
  · rintro m ⟨S, hS, hm⟩ n ⟨S', hS', hn⟩ heq
    rcases List.mem_cons.mp hS with hS | hS <;> rcases List.mem_cons.mp hS' with hS' | hS'
    · rw [hS] at hm
      rw [hS'] at hn
      rw [hkf m hm, hkf n hn] at heq
      exact hf hm hn heq
    · rw [hS] at hm
      rw [hkf m hm, hkg S' hS' n hn] at heq
      exact absurd heq (hcross m hm S' hS' n hn)
    · rw [hS'] at hn
      rw [hkg S hS m hm, hkf n hn] at heq
      exact absurd heq.symm (hcross n hn S hS m hm)
    · rw [hkg S hS m hm, hkg S' hS' n hn] at heq
      exact hg ⟨S, hS, hm⟩ ⟨S', hS', hn⟩ heq
  · rw [List.map_cons, Typing.rename_congr hkf,
      List.map_congr_left fun S hS => Typing.rename_congr (hkg S hS)]

/-- **Typings that are alike one by one and have no common variables are alike together.** -/
theorem AlikeAll.of_pairwise {Rs Rs' : List Typing} (h : List.Forall₂ Alike Rs Rs')
    (hRs : Rs.Pairwise Unrelated) (hRs' : Rs'.Pairwise Unrelated) : AlikeAll Rs Rs' := by
  induction h with
  | nil => exact .nil
  | cons halike _ ih =>
    rw [List.pairwise_cons] at hRs hRs'
    exact .cons halike (ih hRs.2 hRs'.2) hRs.1 hRs'.1

/-- What is made of typings that are alike together is alike. -/
theorem AlikeAll.alike {Rs Rs' : List Typing} (h : AlikeAll Rs Rs') {R R' : Typing}
    (hids : ∀ n ∈ R.ids, ∃ S ∈ Rs, n ∈ S.ids)
    (hR : ∀ f, Rs' = Rs.map (Typing.rename f) → R' = R.rename f) : Alike R R' := by
  obtain ⟨f, hf, heq⟩ := h
  exact ⟨f, hf.mono hids, hR f heq⟩

end LetTyping
